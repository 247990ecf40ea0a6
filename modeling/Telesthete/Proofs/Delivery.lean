import Telesthete.Proofs.RegistryInv

/-!
# Who a frame is delivered to

The delivery rule in terms of the peers of a band, `Recipient`, against what
`forward` and `injectFromLink` hand to sinks. The rule is about peers and the
code collects sinks, so the two agree because of the invariant: an eligible
peer has a sink. `HandedTo` says that a list of sends is one for every peer of a
set, whatever the order a map is walked in.
-/

namespace Telesthete.Relay

open Telesthete.Lib Telesthete.Wire

variable {S : Type} {r : Registry S} {band : BandId} {src : Option PeerKey} {info : RouteInfo}
  {frame : Bytes} {limits : Limits}

/-- Each peer of the set was handed the frame once, and no other sink was. -/
def HandedTo (sends : List (S × Bytes)) (frame : Bytes) (whom : PeerKey → Peer S → Prop) : Prop :=
  ∃ ps : List (PeerKey × Peer S), (ps.map Prod.fst).Nodup ∧ (∀ k p, (k, p) ∈ ps ↔ whom k p) ∧
    sends.map some = ps.map fun e => e.2.sink.map fun sink => (sink, frame)

namespace Registry

variable {k : PeerKey} {p : Peer S}

/-- An eligible peer of the band, not the sender. -/
def Candidate (r : Registry S) (band : BandId) (src : Option PeerKey) (k : PeerKey)
    (p : Peer S) : Prop :=
  r.peer? band k = some p ∧ p.eligible = true ∧ some k ≠ src

/-- The frame is addressed to an id that a candidate declared. -/
def Narrowed (r : Registry S) (band : BandId) (src : Option PeerKey) (info : RouteInfo) : Prop :=
  info.channelType = some .addressed ∧ info.channelId ≠ 0 ∧
    ∃ k p, r.Candidate band src k p ∧ p.route = some info.channelId

/-- The peers a frame is for: the candidates, or of an addressed frame its declarers. -/
def Recipient (r : Registry S) (band : BandId) (src : Option PeerKey) (info : RouteInfo)
    (k : PeerKey) (p : Peer S) : Prop :=
  r.Candidate band src k p ∧ (r.Narrowed band src info → p.route = some info.channelId)

/-- A candidate is enough for a frame to have a recipient. -/
theorem exists_recipient (h : r.Candidate band src k p) :
    ∃ k p, r.Recipient band src info k p := by
  by_cases hnarrow : r.Narrowed band src info
  · obtain ⟨-, -, k', p', hcand, hroute⟩ := hnarrow
    exact ⟨k', p', hcand, fun _ => hroute⟩
  · exact ⟨k, p, h, fun hn => absurd hn hnarrow⟩

theorem mem_entries_peers :
    (⟨k, p⟩ : Sigma fun _ : PeerKey => Peer S) ∈ (r.peers band).entries ↔
      r.peer? band k = some p :=
  AList.mem_lookup_iff.symm

theorem declared_iff (hp : r.peer? band k = some p) {id : UInt16} :
    declared src id k p = true ↔ r.Candidate band src k p ∧ p.route = some id := by
  simp only [declared, Candidate, Bool.and_eq_true, decide_eq_true_eq]
  constructor
  · rintro ⟨⟨hne, he⟩, hroute⟩
    exact ⟨⟨hp, he, hne⟩, hroute⟩
  · rintro ⟨⟨-, he, hne⟩, hroute⟩
    exact ⟨⟨hne, he⟩, hroute⟩

theorem addressed_iff : addressed (r.peers band) src info = true ↔ r.Narrowed band src info := by
  simp only [addressed, Narrowed, Bool.and_eq_true, decide_eq_true_eq, List.any_eq_true, and_assoc]
  refine and_congr_right fun _ => and_congr_right fun _ => ⟨?_, ?_⟩
  · rintro ⟨e, he, hd⟩
    exact ⟨e.1, e.2, (declared_iff (mem_entries_peers.mp he)).mp hd⟩
  · rintro ⟨k, p, hcand, hroute⟩
    exact ⟨⟨k, p⟩, mem_entries_peers.mpr hcand.1, (declared_iff hcand.1).mpr ⟨hcand, hroute⟩⟩

/-- The entries of the peers a frame is for. -/
def chosen (r : Registry S) (band : BandId) (src : Option PeerKey) (info : RouteInfo) :
    List (Sigma fun _ : PeerKey => Peer S) :=
  ((r.peers band).entries.filter fun e => some e.1 ≠ src && e.2.eligible).filter fun e =>
    !addressed (r.peers band) src info || declared src info.channelId e.1 e.2

theorem mem_chosen :
    (⟨k, p⟩ : Sigma fun _ : PeerKey => Peer S) ∈ r.chosen band src info ↔
      r.Recipient band src info k p := by
  simp only [chosen, List.mem_filter, mem_entries_peers, Bool.and_eq_true, Bool.or_eq_true,
    Bool.not_eq_true', decide_eq_true_eq]
  constructor
  · rintro ⟨⟨hp, hne, he⟩, hadd⟩
    refine ⟨⟨hp, he, hne⟩, fun hnarrow => ?_⟩
    rcases hadd with hnot | hd
    · rw [addressed_iff.mpr hnarrow] at hnot
      cases hnot
    · exact ((declared_iff hp).mp hd).2
  · rintro ⟨hcand, hroute⟩
    refine ⟨⟨hcand.1, hcand.2.2, hcand.2.1⟩, ?_⟩
    by_cases hadd : addressed (r.peers band) src info = true
    · exact .inr ((declared_iff hcand.1).mpr ⟨hcand, hroute (addressed_iff.mp hadd)⟩)
    · exact .inl (by simpa using hadd)

end Registry

/-- Where every element gives a value, collecting the values loses nothing. -/
theorem map_some_filterMap {α β : Type} {f : α → Option β} {l : List α}
    (h : ∀ a ∈ l, (f a).isSome) : (l.filterMap f).map some = l.map f := by
  induction l with
  | nil => rfl
  | cons a l ih =>
    obtain ⟨b, hb⟩ := Option.isSome_iff_exists.mp (h a List.mem_cons_self)
    rw [List.filterMap_cons_some hb, List.map_cons, List.map_cons, hb,
      ih fun a ha => h a (List.mem_cons_of_mem _ ha)]

/-- The sinks that are collected are those of the recipients. -/
theorem Registry.Inv.handedTo (h : r.Inv) :
    HandedTo ((targets (r.peers band) src info).map fun sink => (sink, frame)) frame
      (r.Recipient band src info) := by
  have hsinks : ∀ e ∈ r.chosen band src info, e.2.sink.isSome := by
    rintro ⟨k, p⟩ he
    have hcand := (Registry.mem_chosen.mp he).1
    rw [(h.sound band k p hcand.1).sink]
    exact hcand.2.1
  refine ⟨(r.chosen band src info).map fun e => (e.1, e.2), ?_, fun k p => ?_, ?_⟩
  · have hsub : ((r.chosen band src info).map Sigma.fst).Sublist (r.peers band).keys :=
      (List.filter_sublist.trans List.filter_sublist).map _
    rw [List.map_map]
    exact hsub.nodup (r.peers band).nodupKeys
  · rw [← Registry.mem_chosen, List.mem_map]
    constructor
    · rintro ⟨e, he, heq⟩
      cases heq
      exact he
    · intro he
      exact ⟨⟨k, p⟩, he, rfl⟩
  · have hpair : ∀ sinks : List S, (sinks.map fun sink => (sink, frame)).map some =
        (sinks.map some).map (Option.map fun sink => (sink, frame)) := by
      intro sinks
      simp
    show ((List.filterMap _ (r.chosen band src info)).map _).map some = _
    rw [hpair, map_some_filterMap hsinks, List.map_map, List.map_map]
    rfl

/-! ## Declarations -/

/-- The peers with their route ids forgotten. -/
def eraseRoutes (peers : Peers S) : Peers S :=
  mapVals (fun _ p => { p with route := none }) peers

/-- The registry with all route ids forgotten. -/
def Registry.eraseRoutes (r : Registry S) : Registry S :=
  { r with bands := mapVals (fun _ peers => Relay.eraseRoutes peers) r.bands }

theorem eraseRoutes_supersedeRebound {peers : Peers S} {key : PeerKey} :
    eraseRoutes (supersedeRebound peers key) = eraseRoutes peers := by
  unfold supersedeRebound
  split
  · split
    · refine mapVals_mapVals_of_eq fun k q => ?_
      split
      · rfl
      · rfl
    · rfl
  · rfl

theorem Registry.eraseRoutes_declare {key : PeerKey} {id : UInt16} :
    (r.declare band key id).eraseRoutes = r.eraseRoutes := by
  have hpeers : ∀ peers : Peers S, Relay.eraseRoutes
      (supersedeRebound (modify key (routed id) peers) key) = Relay.eraseRoutes peers := by
    intro peers
    rw [eraseRoutes_supersedeRebound]
    exact mapVals_modify_of_eq fun q => rfl
  have hbands : mapVals (fun _ peers => Relay.eraseRoutes peers) (r.declare band key id).bands =
      mapVals (fun _ peers => Relay.eraseRoutes peers) r.bands :=
    mapVals_modify_of_eq (a := band) (g := fun _ peers => Relay.eraseRoutes peers) hpeers
  unfold eraseRoutes
  rw [hbands]
  rfl

/-! ## The delivery rule -/

theorem HandedTo.ne_nil {sends : List (S × Bytes)} {whom : PeerKey → Peer S → Prop}
    (h : HandedTo sends frame whom) (hex : ∃ k p, whom k p) : sends ≠ [] := by
  obtain ⟨ps, -, hmem, hsends⟩ := h
  obtain ⟨k, p, hkp⟩ := hex
  rintro rfl
  have hnil : ps = [] := List.map_eq_nil_iff.mp hsends.symm
  have hin := (hmem k p).mpr hkp
  rw [hnil] at hin
  cases hin

theorem Registry.federated_injectFromLink : (r.injectFromLink band frame).federated = [] := by
  unfold injectFromLink
  split
  · split
    · rfl
    · rfl
  · rfl

/-- In a reachable registry a frame goes to the recipients of the rule and to nobody else, a
declaration goes nowhere and changes only route ids, and what came over a link is never federated.
Any other frame is received by somebody as soon as there is a candidate. -/
theorem Registry.delivery {limits : Limits} {fed : Bool} {r : Registry S}
    (h : Reachable limits fed r) (band : BandId) (src : PeerKey) (frame : Bytes)
    (hlen : minPacketLen ≤ frame.length) :
    ∃ info, routeInfo frame = some info ∧
      (info.channelType ≠ some .route →
        (r.forward band src frame).registry = r ∧
        HandedTo (r.forward band src frame).sends frame (r.Recipient band (some src) info) ∧
        ((∃ k p, r.Candidate band (some src) k p) → (r.forward band src frame).sends ≠ []) ∧
        (r.injectFromLink band frame).registry = r ∧
        HandedTo (r.injectFromLink band frame).sends frame (r.Recipient band none info) ∧
        ((∃ k p, r.Candidate band none k p) → (r.injectFromLink band frame).sends ≠ [])) ∧
      (info.channelType = some .route →
        (r.forward band src frame).sends = [] ∧ (r.forward band src frame).federated = [] ∧
        (r.forward band src frame).registry.eraseRoutes = r.eraseRoutes ∧
        (r.injectFromLink band frame).sends = [] ∧ (r.injectFromLink band frame).registry = r) ∧
      (r.injectFromLink band frame).federated = [] := by
  obtain ⟨-, hinv⟩ := h.inv
  obtain ⟨info, hinfo⟩ := Option.isSome_iff_exists.mp (routeInfo_isSome.mpr hlen)
  refine ⟨info, hinfo, fun hne => ?_, fun hroute => ?_, federated_injectFromLink⟩
  · obtain ⟨hreg, hsends⟩ : (r.forward band src frame).registry = r ∧ _ :=
      forward_of_ne_route hinfo hne
    rw [hsends, injectFromLink_of_ne_route hinfo hne]
    refine ⟨hreg, hinv.handedTo, ?_, rfl, hinv.handedTo, ?_⟩
    · rintro ⟨k, p, hcand⟩
      exact hinv.handedTo.ne_nil (exists_recipient hcand)
    · rintro ⟨k, p, hcand⟩
      exact hinv.handedTo.ne_nil (exists_recipient hcand)
  · rw [forward_of_route hinfo hroute, injectFromLink_of_route hinfo hroute]
    exact ⟨rfl, rfl, eraseRoutes_declare, rfl, rfl⟩

/-- Of three connections the second declared the id 7, and a frame of the first for 7 goes to it. -/
theorem Registry.delivery_declared :
    ∃ (r : Registry Nat) (frame : Bytes), Reachable ⟨4, 4, 2⟩ false r ∧
      minPacketLen ≤ frame.length ∧ (r.forward zeroBand (.conn 1) frame).sends = [(20, frame)] ∧
      ∃ info, routeInfo frame = some info ∧
        HandedTo (r.forward zeroBand (.conn 1) frame).sends frame
          (r.Recipient zeroBand (some (.conn 1)) info) := by
  have hreach := reachable_run ⟨4, 4, 2⟩ false [.connect zeroBand 1 10 0 0,
    .connect zeroBand 2 20 0 0, .connect zeroBand 3 30 0 0,
    .forward zeroBand (.conn 2) (zeroBand.bytes ++ [5, 0, 7] ++ List.replicate 24 0)]
  have hlen : minPacketLen ≤ (zeroBand.bytes ++ [6, 0, 7] ++ List.replicate 24 0).length := by
    decide
  obtain ⟨info, hinfo, hother, -⟩ := delivery hreach zeroBand (.conn 1) _ hlen
  refine ⟨_, _, hreach, hlen, by decide +kernel, info, hinfo, (hother ?_).2.1⟩
  have htype : (routeInfo (zeroBand.bytes ++ [6, 0, 7] ++ List.replicate 24 0)).all
      (fun info => info.channelType ≠ some .route) = true := by decide +kernel
  rw [hinfo] at htype
  simpa using htype

end Telesthete.Relay
