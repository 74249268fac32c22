import Fecraw.Verified.Erasure
import Fecraw.Ports.Packet
import Fecraw.Ports.RsTable
import Fecraw.Ports.BlobCodec
import Fecraw.Ports.Tunnel
import Fecraw.Ports.Transfer
import Fecraw.Ports.AdmissibleGroups
import Fecraw.Ports.ConnTimer
import Fecraw.Ports.Dedup
import Fecraw.Ports.RatioInForce
import Fecraw.Ports.DecoderAborts
import Fecraw.Ports.EncoderSafety
import Fecraw.Ports.Bridge
import Fecraw.Ports.ClientStep
import Fecraw.Ports.Handshake
import Fecraw.Ports.ServerLoop
import Fecraw.Ports.RsRows
import Fecraw.Ports.AdaptiveRun
import Fecraw.Ports.PacingRun
import Fecraw.Ports.FlushTimer
import Fecraw.Ports.Framing
import Fecraw.Ports.Overhead
import Fecraw.Ports.ReplayWindow
import Fecraw.Ports.Described
import Fecraw.Ports.Records
import Fecraw.Ports.PacketSlot
import Fecraw.Ports.ConfigText
import Fecraw.Ports.Deframing
import Fecraw.Ports.MssFix
import Fecraw.Ports.MtuLaw
import Fecraw.Ports.SendPath
import Fecraw.Ports.Role
import Fecraw.Ports.KeyBuffers
import Fecraw.Ports.LosslessLink
import Fecraw.Ports.ConvExpiry
import Fecraw.Ports.RsTransfer
import Fecraw.Ports.AesModes
import Fecraw.Ports.Crc32
