import Mathlib.Data.List.Infix
import Telesthete.Proofs.Delivery
import Mathlib.Data.List.Induction

/-!
# Nobody takes a route id away from afar

Route ids are not authenticated, so what protects a declaration is which entries
an operation can reach. An operation caused by one peer changes no other entry
except by the takeover after a NAT rebinding, and that reaches only other ports of
its own IP: a peer elsewhere keeps its entry as it is (`peer?_apply_of_foreign`).

The second half compares two runs. Sources that never complete validation are
not eligible, so they neither receive nor narrow nor take over anything: a
registry they sent to agrees on everybody else's entries with the one they never
sent to (`Agrees`), as long as they do not use up the room of others.
-/

namespace Telesthete.Relay

open Telesthete.Lib Telesthete.Wire Registry
open Telesthete.Band (SocketAddr)

variable {S : Type} {r r' full proj : Registry S} {band b : BandId} {v k key : PeerKey}
  {frame : Bytes} {limits : Limits} {p : Peer S} {op : Op S} {ttl now later : Nat}

/-- The peer whose transport calls the operation; none for a link and for idle eviction. -/
def Op.source : Op S → Option PeerKey
  | .connect _ id _ _ _ => some (.conn id)
  | .observeUdp _ addr _ _ _ => some (.udp addr)
  | .touch _ id _ => some (.conn id)
  | .forward _ src _ => some src
  | .injectFromLink _ _ => none
  | .disconnect _ key => some key
  | .prune _ _ => none

/-- Another peer than `v`: a connection, or a UDP source of another IP. -/
def Foreign (v k : PeerKey) : Prop :=
  k ≠ v ∧ ∀ a a', v = .udp a → k = .udp a' → a'.ip ≠ a.ip

/-- The operation is caused by other peers than `v`, and does not evict it. -/
def ByOthers (band : BandId) (v : PeerKey) (r : Registry S) (op : Op S) : Prop :=
  (∀ k, op.source = some k → Foreign v k) ∧
    ∀ ttl now p, op = .prune ttl now → r.peer? band v = some p → ¬ Registry.Idle ttl now v p

theorem superseded_of_foreign {found : Option (Peer S)} (h : Foreign v k) :
    superseded k found v p = p := by
  refine superseded_eq_self fun addr a _ hk hv _ _ => .inr ?_
  exact fun hip => h.2 a addr hv hk hip.symm

namespace Registry

theorem peer?_insert_of_ne {sink : S} {conn : Bool} (h : k ≠ key) :
    (r.insert band key sink conn now later).registry.peer? b k = r.peer? b k := by
  rw [insert_eq]
  cases r.refusal band with
  | some e => rfl
  | none =>
    rw [peer?_register, if_neg fun heq => h heq.2]

/-- The operations of others leave the entry of `v` as it is. -/
theorem peer?_apply_of_foreign (h : ByOthers band v r op) :
    (r.apply op).registry.peer? band v = r.peer? band v := by
  obtain ⟨hsource, hprune⟩ := h
  cases op with
  | connect b id sink now later => exact peer?_insert_of_ne (hsource _ rfl).1.symm
  | observeUdp b addr sink now later =>
    have hforeign := hsource _ rfl
    show (r.observeUdp b addr sink now later).registry.peer? band v = _
    cases hpeer : r.peer? b (.udp addr) with
    | none =>
      rw [observeUdp_of_none hpeer]
      exact peer?_insert_of_ne hforeign.1.symm
    | some q =>
      rw [peer?_observeUdp hpeer]
      simp [hforeign.1.symm, superseded_of_foreign hforeign]
  | touch b id now =>
    have hforeign := hsource _ rfl
    show (r.touch b (.conn id) now).registry.peer? band v = _
    rw [peer?_touch, if_neg fun heq => hforeign.1 heq.2.symm]
  | forward b src frame =>
    have hforeign := hsource _ rfl
    show (r.forward b src frame).registry.peer? band v = _
    rcases registry_forward r b src frame with heq | ⟨id, heq⟩
    · rw [heq]
    · rw [heq, peer?_declare]
      simp [hforeign.1.symm, superseded_of_foreign hforeign]
  | injectFromLink b frame =>
    show (r.injectFromLink b frame).registry.peer? band v = _
    rw [registry_injectFromLink]
  | disconnect b key =>
    have hforeign := hsource _ rfl
    show (r.disconnect b key).registry.peer? band v = _
    rw [peer?_disconnect, if_neg fun heq => hforeign.1 heq.2.symm]
  | prune ttl now =>
    show (r.pruned ttl now).peer? band v = _
    rw [peer?_pruned]
    cases hpeer : r.peer? band v with
    | none => rfl
    | some q =>
      have hkept : retained ttl now v q = true :=
        retained_iff.mpr (hprune ttl now q rfl hpeer)
      simp [hkept]

theorem peer?_of_byOthers (h : GuardedRun step (ByOthers band v) r r') :
    r'.peer? band v = r.peer? band v := by
  refine GuardedRun.invariant (P := fun s : Registry S => s.peer? band v = r.peer? band v) h rfl
    fun s op s' hs hok hstep => ?_
  cases hstep
  exact (peer?_apply_of_foreign hok).trans hs

end Registry

theorem HandedTo.mem {sends : List (S × Bytes)} {whom : PeerKey → Peer S → Prop} {sink : S}
    (h : HandedTo sends frame whom) (hv : whom v p) (hsink : p.sink = some sink) :
    (sink, frame) ∈ sends := by
  obtain ⟨ps, -, hmem, hsends⟩ := h
  have hin : some (sink, frame) ∈ ps.map fun e => e.2.sink.map fun sink => (sink, frame) :=
    List.mem_map.mpr ⟨(v, p), (hmem v p).mpr hv, by simp [hsink]⟩
  rw [← hsends] at hin
  simpa using hin

/-- An eligible declarer gets what others address to its id. -/
theorem Registry.Inv.mem_sends {x : UInt16} {src : PeerKey} {info : RouteInfo} (h : r.Inv)
    (hp : r.peer? band v = some p) (he : p.eligible = true) (hroute : p.route = some x)
    (hsrc : src ≠ v) (hinfo : routeInfo frame = some info)
    (htype : info.channelType = some .addressed) (hid : info.channelId = x) :
    ∃ sink, p.sink = some sink ∧ (sink, frame) ∈ (r.forward band src frame).sends := by
  have hsink : p.sink.isSome := by
    rw [(h.sound band v p hp).sink]
    exact he
  obtain ⟨sink, hsink⟩ := Option.isSome_iff_exists.mp hsink
  have hne : info.channelType ≠ some .route := by
    rw [htype]
    decide
  have hfwd : (r.forward band src frame).registry = r ∧ _ := forward_of_ne_route hinfo hne
  rw [hfwd.2]
  refine ⟨sink, hsink, h.handedTo.mem ⟨⟨hp, he, ?_⟩, fun _ => ?_⟩ hsink⟩
  · exact fun heq => hsrc (Option.some.inj heq).symm
  · rw [hroute, hid]

/-! ## Two runs -/

/-- The key is none of the sources looked at. -/
def Honest (sources : SocketAddr → Bool) (k : PeerKey) : Prop :=
  ∀ addr, k = .udp addr → sources addr = false

def Op.isBy (sources : SocketAddr → Bool) (op : Op S) : Bool :=
  match op.source with
  | some (.udp addr) => sources addr
  | _ => false

variable {sources : SocketAddr → Bool}

theorem Op.honest_of_source (h : op.isBy sources = false) (hk : op.source = some k) :
    Honest sources k := by
  rintro addr rfl
  simpa [Op.isBy, hk] using h

/-- The registry `full` is `proj` with peers of the sources added. -/
structure Agrees (sources : SocketAddr → Bool) (full proj : Registry S) : Prop where
  limits : full.limits = proj.limits
  honest : ∀ b k, Honest sources k → full.peer? b k = proj.peer? b k
  absent : ∀ b addr, sources addr = true → proj.peer? b (.udp addr) = none

/-- No peer of the sources is eligible. -/
def Inert (sources : SocketAddr → Bool) (r : Registry S) : Prop :=
  ∀ b addr p, sources addr = true → r.peer? b (.udp addr) = some p → p.eligible = false

theorem Agrees.peer? (h : Agrees sources full proj) (hp : proj.peer? b k = some p) :
    full.peer? b k = some p := by
  refine (h.honest b k ?_).trans hp
  rintro addr rfl
  by_contra hs
  rw [h.absent b addr (by simpa using hs)] at hp
  cases hp

/-- Where the larger registry has room, so does the smaller one. -/
theorem Agrees.refusal (h : Agrees sources full proj) (hfull : full.Sized) (hproj : proj.Sized)
    (hroom : full.refusal band = none) : proj.refusal band = none := by
  have hbands : ∀ b ∈ proj.bands, b ∈ full.bands := by
    intro b hb
    obtain ⟨k, p, hp⟩ := hproj.mem_iff.mp hb
    exact hfull.mem_iff.mpr ⟨k, p, h.peer? hp⟩
  have hpeers : (proj.peers band).entries.length ≤ (full.peers band).entries.length := by
    refine length_entries_le fun k hk => ?_
    obtain ⟨p, hp⟩ := Option.isSome_iff_exists.mp (AList.lookup_isSome.mpr hk)
    exact mem_of_lookup (h.peer? hp)
  obtain ⟨hnew, hlt⟩ := room_of_refusal hroom
  have hcap : band ∉ proj.bands → proj.bands.entries.length < proj.limits.maxBands := by
    intro hnot
    rw [← h.limits]
    by_cases hmem : band ∈ full.bands
    · -- the band itself is one more that only the larger registry has
      have hone : (proj.bands.insert band ∅).entries.length ≤ full.bands.entries.length := by
        refine length_entries_le fun b hb => ?_
        rcases (AList.mem_insert _).mp hb with rfl | hb
        · exact hmem
        · exact hbands b hb
      rw [length_entries_insert hnot] at hone
      exact lt_of_lt_of_le hone hfull.bands
    · exact lt_of_le_of_lt (length_entries_le hbands) (hnew hmem)
  unfold Registry.refusal
  rw [if_neg, if_neg]
  · rw [← h.limits]
    exact not_le.mpr (lt_of_le_of_lt hpeers hlt)
  · intro hc
    obtain ⟨hnone, hle⟩ := Bool.and_eq_true_iff.mp hc
    have hnot : band ∉ proj.bands := AList.lookup_eq_none.mp (Option.isNone_iff_eq_none.mp hnone)
    exact not_le.mpr (hcap hnot) (of_decide_eq_true hle)

/-- Registering a peer that is none of the sources. -/
theorem Agrees.insert {sink : S} {conn : Bool} (h : Agrees sources full proj) (hfull : full.Sized)
    (hproj : proj.Sized) (hkey : Honest sources key)
    (hok : (full.insert band key sink conn now later).result = .ok ()) :
    Agrees sources (full.insert band key sink conn now later).registry
      (proj.insert band key sink conn now later).registry := by
  rw [insert_eq] at hok
  rw [insert_eq, insert_eq]
  cases hroom : full.refusal band with
  | some e =>
    rw [hroom] at hok
    cases hok
  | none =>
    rw [h.refusal hfull hproj hroom]
    refine ⟨h.limits, fun b k hk => ?_, fun b addr hs => ?_⟩
    · show (full.register band key _).peer? b k = (proj.register band key _).peer? b k
      rw [peer?_register, peer?_register, h.limits, h.honest b k hk]
    · show (proj.register band key _).peer? b (.udp addr) = none
      rw [peer?_register, if_neg, h.absent b addr hs]
      rintro ⟨-, rfl⟩
      rw [hkey addr rfl] at hs
      cases hs

/-- An operation that treats equal entries equally and puts none where there was none. -/
theorem Agrees.of_entries {full' proj' : Registry S} (h : Agrees sources full proj)
    (hlimits : full'.limits = proj'.limits)
    (hsame : ∀ b k, full.peer? b k = proj.peer? b k → full'.peer? b k = proj'.peer? b k)
    (hnone : ∀ b k, proj.peer? b k = none → proj'.peer? b k = none) : Agrees sources full' proj' where
  limits := hlimits
  honest := fun b k hk => hsame b k (h.honest b k hk)
  absent := fun b addr hs => hnone b _ (h.absent b addr hs)

/-- An operation of somebody else does the same to both. -/
theorem Agrees.apply (h : Agrees sources full proj) (hfull : full.Sized) (hproj : proj.Sized)
    (hby : op.isBy sources = false) (hok : (full.apply op).result = .ok ()) :
    Agrees sources (full.apply op).registry (proj.apply op).registry := by
  have hlimits : (full.apply op).registry.limits = (proj.apply op).registry.limits := by
    rw [limits_apply, limits_apply, h.limits]
  cases op with
  | connect band id sink now later => exact h.insert hfull hproj (Op.honest_of_source hby rfl) hok
  | observeUdp band addr sink now later =>
    have hkey : Honest sources (.udp addr) := Op.honest_of_source hby rfl
    have hsame := h.honest band _ hkey
    cases hpeer : proj.peer? band (.udp addr) with
    | none =>
      have hok' : (full.observeUdp band addr sink now later).result = .ok () := hok
      show Agrees sources (full.observeUdp band addr sink now later).registry
        (proj.observeUdp band addr sink now later).registry
      rw [observeUdp_of_none (hsame.trans hpeer)] at hok' ⊢
      rw [observeUdp_of_none hpeer]
      exact h.insert hfull hproj hkey hok'
    | some p =>
      refine h.of_entries hlimits (fun b k heq => ?_) (fun b k hk => ?_)
      · show (full.observeUdp band addr sink now later).registry.peer? b k =
          (proj.observeUdp band addr sink now later).registry.peer? b k
        rw [peer?_observeUdp (hsame.trans hpeer), peer?_observeUdp hpeer,
          h.limits, heq]
      · show (proj.observeUdp band addr sink now later).registry.peer? b k = none
        rw [peer?_observeUdp hpeer, hk]
        simp
  | touch band id now =>
    refine h.of_entries hlimits (fun b k heq => ?_) (fun b k hk => ?_)
    · show (full.touch band _ now).registry.peer? b k = (proj.touch band _ now).registry.peer? b k
      rw [peer?_touch, peer?_touch, heq]
    · show (proj.touch band _ now).registry.peer? b k = none
      rw [peer?_touch, hk]
      simp
  | forward band src frame =>
    have hkey : Honest sources src := Op.honest_of_source hby rfl
    show Agrees sources (full.forward band src frame).registry
      (proj.forward band src frame).registry
    cases hinfo : routeInfo frame with
    | none =>
      rw [forward_of_short hinfo, forward_of_short hinfo]
      exact h
    | some info =>
      by_cases hroute : info.channelType = some .route
      · rw [forward_of_route hinfo hroute, forward_of_route hinfo hroute]
        refine h.of_entries h.limits (fun b k heq => ?_) (fun b k hk => ?_)
        · show (full.declare band src _).peer? b k = (proj.declare band src _).peer? b k
          rw [peer?_declare, peer?_declare, heq, h.honest band src hkey]
        · show (proj.declare band src _).peer? b k = none
          rw [peer?_declare, hk]
          simp
      · rw [(forward_of_ne_route hinfo hroute).1,
          (forward_of_ne_route hinfo hroute).1]
        exact h
  | injectFromLink band frame =>
    show Agrees sources (full.injectFromLink band frame).registry
      (proj.injectFromLink band frame).registry
    rw [registry_injectFromLink, registry_injectFromLink]
    exact h
  | disconnect band key =>
    refine h.of_entries hlimits (fun b k heq => ?_) (fun b k hk => ?_)
    · show (full.disconnect band key).registry.peer? b k =
        (proj.disconnect band key).registry.peer? b k
      rw [peer?_disconnect, peer?_disconnect, heq]
    · show (proj.disconnect band key).registry.peer? b k = none
      rw [peer?_disconnect, hk]
      simp
  | prune ttl now =>
    refine h.of_entries hlimits (fun b k heq => ?_) (fun b k hk => ?_)
    · show (full.pruned ttl now).peer? b k = (proj.pruned ttl now).peer? b k
      rw [peer?_pruned, peer?_pruned, heq]
    · show (proj.pruned ttl now).peer? b k = none
      rw [peer?_pruned, hk]
      rfl

theorem Honest.ne {addr : SocketAddr} (h : Honest sources k) (hs : sources addr = true) :
    k ≠ .udp addr := by
  rintro rfl
  rw [h addr rfl] at hs
  cases hs

theorem exists_source_of_isBy (h : op.isBy sources = true) :
    ∃ addr, op.source = some (.udp addr) ∧ sources addr = true := by
  unfold Op.isBy at h
  split at h
  · exact ⟨_, by assumption, h⟩
  · cases h

/-- A source that does not become eligible changes nobody else's entry. -/
theorem peer?_apply_of_isBy (hby : op.isBy sources = true) (hinert : Inert sources r)
    (hafter : Inert sources (r.apply op).registry) (hk : Honest sources k) :
    (r.apply op).registry.peer? b k = r.peer? b k := by
  obtain ⟨addr, hsource, hs⟩ := exists_source_of_isBy hby
  have hne := hk.ne hs
  cases op with
  | connect band id sink now later => cases hsource
  | observeUdp band a sink now later =>
    cases hsource
    show (r.observeUdp band addr sink now later).registry.peer? b k = _
    cases hpeer : r.peer? band (.udp addr) with
    | none =>
      rw [observeUdp_of_none hpeer]
      exact peer?_insert_of_ne hne
    | some p =>
      -- had this packet completed validation, the peer would be eligible now
      have hpro : Registry.promotes r.limits now p = false := by
        by_contra hpro
        have hpro : Registry.promotes r.limits now p = true := by simpa using hpro
        have hnow : (r.observeUdp band addr sink now later).registry.peer? band (.udp addr) =
            some (Registry.observe r.limits sink now p) := by
          rw [peer?_observeUdp hpeer]
          simp [hpeer]
        have hfalse := hafter band addr _ hs hnow
        simp [Registry.observe, hpro] at hfalse
      rw [peer?_observeUdp hpeer]
      simp [hne, hpro]
  | touch band id now => cases hsource
  | forward band src frame =>
    cases hsource
    show (r.forward band (.udp addr) frame).registry.peer? b k = _
    rcases registry_forward r band (.udp addr) frame with heq | ⟨id, heq⟩
    · rw [heq]
    · have hself : ∀ q : Peer S, superseded (.udp addr)
          ((r.peer? band (.udp addr)).map (Registry.routed id)) k q = q := by
        refine fun q => superseded_eq_self fun _ _ p _ _ hfound he => ?_
        obtain ⟨p', hp', rfl⟩ := Option.map_eq_some_iff.mp hfound
        have hfalse : p'.eligible = false := hinert band addr p' hs hp'
        have htrue : p'.eligible = true := he
        rw [hfalse] at htrue
        cases htrue
      rw [heq, peer?_declare]
      simp [hne, hself]
  | injectFromLink band frame => cases hsource
  | disconnect band key =>
    cases hsource
    show (r.disconnect band (.udp addr)).registry.peer? b k = _
    rw [peer?_disconnect, if_neg fun heq => hne heq.2]
  | prune ttl now => cases hsource

/-- Agreeing registries choose the same recipients. -/
theorem Agrees.candidate_iff {src : Option PeerKey} (h : Agrees sources full proj)
    (hinert : Inert sources full) :
    full.Candidate band src k p ↔ proj.Candidate band src k p := by
  constructor
  · rintro ⟨hp, he, hne⟩
    refine ⟨?_, he, hne⟩
    rw [← h.honest band k, hp]
    rintro addr rfl
    by_contra hs
    rw [hinert band addr p (by simpa using hs) hp] at he
    cases he
  · rintro ⟨hp, he, hne⟩
    exact ⟨h.peer? hp, he, hne⟩

theorem Agrees.recipient_iff {src : Option PeerKey} {info : RouteInfo}
    (h : Agrees sources full proj) (hinert : Inert sources full) :
    full.Recipient band src info k p ↔ proj.Recipient band src info k p := by
  unfold Registry.Recipient Registry.Narrowed
  simp only [h.candidate_iff hinert]

/-- What is handed to the same peers is the same up to order. -/
theorem HandedTo.perm {sends sends' : List (S × Bytes)} {whom whom' : PeerKey → Peer S → Prop}
    (h : HandedTo sends frame whom) (h' : HandedTo sends' frame whom')
    (hiff : ∀ k p, whom k p ↔ whom' k p) : sends.Perm sends' := by
  obtain ⟨ps, hnodup, hmem, hsends⟩ := h
  obtain ⟨ps', hnodup', hmem', hsends'⟩ := h'
  have hperm : ps.Perm ps' := by
    refine (List.perm_ext_iff_of_nodup (hnodup.of_map _) (hnodup'.of_map _)).mpr ?_
    rintro ⟨k, p⟩
    rw [hmem, hmem', hiff]
  have hmap : (sends.map some).Perm (sends'.map some) := by
    rw [hsends, hsends']
    exact hperm.map _
  exact (List.map_perm_map_iff (Option.some_injective _)).mp hmap

theorem Agrees.perm_forward {src : PeerKey} (h : Agrees sources full proj) (hfull : full.Inv)
    (hproj : proj.Inv) (hinert : Inert sources full) :
    (full.forward band src frame).sends.Perm (proj.forward band src frame).sends := by
  cases hinfo : routeInfo frame with
  | none => rw [forward_of_short hinfo, forward_of_short hinfo]
  | some info =>
    by_cases hroute : info.channelType = some .route
    · rw [forward_of_route hinfo hroute, forward_of_route hinfo hroute]
    · rw [(forward_of_ne_route hinfo hroute).2,
        (forward_of_ne_route hinfo hroute).2]
      exact hfull.handedTo.perm hproj.handedTo fun k p => h.recipient_iff hinert

theorem Agrees.perm_injectFromLink (h : Agrees sources full proj) (hfull : full.Inv)
    (hproj : proj.Inv) (hinert : Inert sources full) :
    (full.injectFromLink band frame).sends.Perm (proj.injectFromLink band frame).sends := by
  cases hinfo : routeInfo frame with
  | none =>
    unfold Registry.injectFromLink
    rw [hinfo]
  | some info =>
    by_cases hroute : info.channelType = some .route
    · rw [injectFromLink_of_route hinfo hroute,
        injectFromLink_of_route hinfo hroute]
    · rw [injectFromLink_of_ne_route hinfo hroute,
        injectFromLink_of_ne_route hinfo hroute]
      exact hfull.handedTo.perm hproj.handedTo fun k p => h.recipient_iff hinert

/-- Along the operations no peer of the sources reaches the validation count. -/
def NeverValidates (sources : SocketAddr → Bool) (r : Registry S) (ops : List (Op S)) : Prop :=
  ∀ pre, pre <+: ops → ∀ band addr p, sources addr = true →
    (r.run pre).peer? band (.udp addr) = some p → p.packets < r.limits.udpValidationPackets.toNat

/-- Along the operations nobody is refused. -/
def NoCapHit (r : Registry S) (ops : List (Op S)) : Prop :=
  ∀ pre op, pre ++ [op] <+: ops → ((r.run pre).apply op).result = .ok ()

theorem NeverValidates.inert {fed : Bool} {ops : List (Op S)} (h : NeverValidates sources r ops)
    (hr : Registry.Reachable limits fed r) : Inert sources (r.run ops) := by
  intro b addr p hs hp
  obtain ⟨hlimits, hinv⟩ := (hr.run ops).inv
  have hlt := h ops (List.prefix_refl ops) b addr p hs hp
  have hudp := (hinv.sound b _ p hp).udp addr rfl
  rw [hlimits, ← hr.inv.1] at hudp
  by_contra he
  have hle := hudp.mp (by simpa using he)
  omega

/-- The run with the operations of the sources and the run without them. The induction is on the
end of the run, where the last operation is either common to both or one of the sources'. -/
theorem agrees_run {fed : Bool} (hr : Registry.Reachable limits fed r)
    (hfresh : ∀ b addr, sources addr = true → r.peer? b (.udp addr) = none)
    (ops : List (Op S)) (hcap : NoCapHit r ops) (hquiet : NeverValidates sources r ops) :
    Agrees sources (r.run ops) (r.run (ops.filter fun op => !op.isBy sources)) := by
  induction ops using List.reverseRecOn with
  | nil => exact ⟨rfl, fun _ _ _ => rfl, hfresh⟩
  | append_singleton ops op ih =>
    have hpre : ops <+: ops ++ [op] := List.prefix_append ops [op]
    have hcap' : NoCapHit r ops := fun pre o h => hcap pre o (h.trans hpre)
    have hquiet' : NeverValidates sources r ops := fun pre h => hquiet pre (h.trans hpre)
    have hagree := ih hcap' hquiet'
    have hlast : r.run (ops ++ [op]) = ((r.run ops).apply op).registry := by
      simp [Registry.run]
    have hafter := hquiet.inert hr
    rw [hlast] at hafter ⊢
    rw [List.filter_append]
    by_cases hby : op.isBy sources = true
    · have hdrop : [op].filter (fun op => !op.isBy sources) = [] := by simp [hby]
      rw [hdrop, List.append_nil]
      refine ⟨limits_apply.trans hagree.limits, fun b k hk => ?_, hagree.absent⟩
      rw [peer?_apply_of_isBy hby (hquiet'.inert hr) hafter hk]
      exact hagree.honest b k hk
    · have hkeep : [op].filter (fun op => !op.isBy sources) = [op] := by simp [hby]
      have hproj : r.run (ops.filter (fun op => !op.isBy sources) ++ [op]) =
          ((r.run (ops.filter fun op => !op.isBy sources)).apply op).registry := by
        simp [Registry.run]
      rw [hkeep, hproj]
      exact hagree.apply (hr.run ops).inv.2.sized (hr.run _).inv.2.sized (by simpa using hby)
        (hcap ops op (List.prefix_refl _))

/-- A declaration of an eligible peer survives whatever other peers do, and draws the frames
addressed to it. And UDP sources that do not complete validation might as well not be there: every
frame goes to the same sinks with their operations and without. -/
theorem route_squatting {limits : Limits} {fed : Bool} {r : Registry S}
    (hr : Registry.Reachable limits fed r) :
    (∀ band v p x, r.peer? band v = some p → p.eligible = true → p.route = some x →
      ∀ r', GuardedRun Registry.step (ByOthers band v) r r' →
        ∃ p', r'.peer? band v = some p' ∧ p'.eligible = true ∧ p'.route = some x ∧
          ∀ src frame info, src ≠ v → routeInfo frame = some info →
            info.channelType = some .addressed → info.channelId = x →
            ∃ sink, p'.sink = some sink ∧ (sink, frame) ∈ (r'.forward band src frame).sends) ∧
    (∀ sources : SocketAddr → Bool,
      (∀ band addr, sources addr = true → r.peer? band (.udp addr) = none) →
      ∀ ops, NoCapHit r ops → NeverValidates sources r ops →
        ∀ band frame,
          (∀ src, ((r.run ops).forward band src frame).sends.Perm
            ((r.run (ops.filter fun op => !op.isBy sources)).forward band src frame).sends) ∧
          ((r.run ops).injectFromLink band frame).sends.Perm
            ((r.run (ops.filter fun op => !op.isBy sources)).injectFromLink band frame).sends) := by
  refine ⟨fun band v p x hp he hroute r' hrun => ?_,
    fun sources hfresh ops hcap hquiet band frame => ?_⟩
  · have hp' := (peer?_of_byOthers hrun).trans hp
    have hr' : Registry.Reachable limits fed r' := hr.trans (hrun.mono fun _ _ _ => trivial)
    refine ⟨p, hp', he, hroute, fun src frame info hsrc hinfo htype hid => ?_⟩
    exact hr'.inv.2.mem_sends hp' he hroute hsrc hinfo htype hid
  · have hagree := agrees_run hr hfresh ops hcap hquiet
    have hfull := (hr.run ops).inv.2
    have hproj := (hr.run (ops.filter fun op => !op.isBy sources)).inv.2
    have hinert := hquiet.inert hr
    exact ⟨fun src => hagree.perm_forward hfull hproj hinert,
      hagree.perm_injectFromLink hfull hproj hinert⟩

/-- A frame of a type that names the id 7. -/
def frameOn7 (type : UInt8) : Bytes := zeroBand.bytes ++ [type, 0, 7] ++ List.replicate 24 0

/-- A connection declares the id 7, and so does a UDP source that was heard once. -/
def spoofed : List (Op Nat) :=
  [.connect zeroBand 1 10 0 0, .forward zeroBand (.conn 1) (frameOn7 5),
    .observeUdp zeroBand ⟨9, 9⟩ 90 1 1, .forward zeroBand (.udp ⟨9, 9⟩) (frameOn7 5)]

theorem packets_lt_of_entries {n : Nat} {band : BandId} {p : Peer S}
    (h : ∀ e ∈ r.bands.entries, ∀ q ∈ e.2.entries, q.2.packets < n)
    (hp : r.peer? band k = some p) : p.packets < n := by
  rw [Registry.peer?, Registry.peers] at hp
  cases hband : r.bands.lookup band with
  | none =>
    rw [hband] at hp
    cases hp
  | some found =>
    rw [hband] at hp
    exact h ⟨band, found⟩ (AList.mem_lookup_iff.mp hband) ⟨k, p⟩ (AList.mem_lookup_iff.mp hp)

/-- A second connection declares the id 7 of the first, which still gets what a third sends it; and
it would get the same without the UDP source. -/
theorem route_squatting_collision :
    (∃ (r r' : Registry Nat) (p' : Peer Nat) (sink : Nat),
      Registry.Reachable ⟨4, 4, 2⟩ false r ∧
      GuardedRun Registry.step (ByOthers zeroBand (.conn 1)) r r' ∧
      (r'.peer? zeroBand (.conn 2)).any (fun p => p.route = some 7) = true ∧
      r'.peer? zeroBand (.conn 1) = some p' ∧ p'.sink = some sink ∧
      (sink, frameOn7 6) ∈ (r'.forward zeroBand (.conn 3) (frameOn7 6)).sends) ∧
    (((Registry.new ⟨4, 4, 4⟩ false).run spoofed).forward zeroBand (.conn 3)
      (frameOn7 6)).sends.Perm (((Registry.new ⟨4, 4, 4⟩ false).run (spoofed.take 2)).forward
        zeroBand (.conn 3) (frameOn7 6)).sends := by
  constructor
  · have hreach := reachable_run ⟨4, 4, 2⟩ false [.connect zeroBand 1 10 0 0,
      .forward zeroBand (.conn 1) (frameOn7 5)]
    have hforeign : Foreign (.conn 1) (.conn 2) := ⟨by decide, by rintro _ _ ⟨⟩⟩
    have hothers : ∀ op ∈ [Op.connect zeroBand 2 20 1 1, .forward zeroBand (.conn 2) (frameOn7 5)],
        ∀ s : Registry Nat, ByOthers zeroBand (.conn 1) s op := by
      intro op hop s
      simp only [List.mem_cons, List.not_mem_nil, or_false] at hop
      rcases hop with rfl | rfl <;>
        exact ⟨by rintro _ ⟨⟩; exact hforeign, by rintro _ _ _ ⟨⟩⟩
    obtain ⟨p', hp', -, -, hsends⟩ := (route_squatting hreach).1 zeroBand (.conn 1)
      ⟨some 10, 0, 0, true, 1, some 7, 1, 1⟩ 7 (by decide +kernel) rfl rfl _
      (guardedRun_run _ _ hothers)
    obtain ⟨sink, hsink, hmem⟩ := hsends (.conn 3) (frameOn7 6) ⟨zeroBand, some .addressed, 7⟩
      (by decide) (by decide +kernel) rfl rfl
    exact ⟨_, _, p', sink, hreach, guardedRun_run _ _ hothers, by decide +kernel, hp',
      hsink, hmem⟩
  · have hcap : ∀ pre ∈ spoofed.inits, ∀ op ∈ spoofed,
        (((Registry.new ⟨4, 4, 4⟩ false).run pre).apply op).result = .ok () := by decide +kernel
    have hheard : ∀ pre ∈ spoofed.inits,
        ∀ e ∈ ((Registry.new ⟨4, 4, 4⟩ false).run pre).bands.entries, ∀ q ∈ e.2.entries, q.2.packets < 4 := by decide +kernel
    refine ((route_squatting (reachable_run ⟨4, 4, 4⟩ false [])).2 (· = ⟨9, 9⟩)
      (fun _ _ _ => rfl) spoofed ?_ ?_ zeroBand (frameOn7 6)).1 (.conn 3)
    · intro pre op hpre
      exact hcap pre ((List.mem_inits _ _).mpr ((List.prefix_append pre [op]).trans hpre)) op
        (hpre.subset (List.mem_append_right _ List.mem_cons_self))
    · intro pre hpre band addr p _ hp
      exact packets_lt_of_entries (hheard pre ((List.mem_inits _ _).mpr hpre)) hp

end Telesthete.Relay
