import Telesthete.Proofs.BoardAgree
import Telesthete.Proofs.BoardDigest
import Telesthete.Proofs.BoardVersions
import Telesthete.Proofs.ByteBudget
import Telesthete.Proofs.ChannelClose
import Telesthete.Proofs.ChannelFlow
import Telesthete.Proofs.ChannelMessages
import Telesthete.Proofs.ChannelOverflow
import Telesthete.Proofs.ChannelProgress
import Telesthete.Proofs.ChannelRetry
import Telesthete.Proofs.CipherAgreement
import Telesthete.Proofs.Discovery
import Telesthete.Proofs.DmabufAgree
import Telesthete.Proofs.DropPanics
import Telesthete.Proofs.DropPull
import Telesthete.Proofs.EgressOrder
import Telesthete.Proofs.MemoryPressure
import Telesthete.Proofs.OneHop
import Telesthete.Proofs.PeerBound
import Telesthete.Proofs.Psk
import Telesthete.Proofs.PythonClose
import Telesthete.Proofs.PythonDrop
import Telesthete.Proofs.PythonNonce
import Telesthete.Proofs.RawPacket
import Telesthete.Proofs.Readmission
import Telesthete.Proofs.ReassemblerAgree
import Telesthete.Proofs.Rebind
import Telesthete.Proofs.RoundTrip
import Telesthete.Proofs.SpatialHandshake
import Telesthete.Proofs.SpatialLatest
import Telesthete.Proofs.SpatialTcp
import Telesthete.Proofs.StreamDemux
