import Boreas.Backpressure
import Boreas.BadDatagrams
import Boreas.Balance
import Boreas.CancelledReads
import Boreas.Checksums
import Boreas.DohProtocols
import Boreas.DohRetry
import Boreas.Drain
import Boreas.EgressSide
import Boreas.EmptyBody
import Boreas.ExpiryIndex
import Boreas.FinishedStreams
import Boreas.FramedWrite
import Boreas.GroupTraffic
import Boreas.HandleReuse
import Boreas.HostDevice
import Boreas.HostDriver
import Boreas.HostNames
import Boreas.IcmpRate
import Boreas.IdleListeners
import Boreas.ListsJoined
import Boreas.Loans
import Boreas.Masque
import Boreas.NameForms
import Boreas.Origination
import Boreas.PathChange
import Boreas.PoliciesKept
import Boreas.ProxyAddresses
import Boreas.QuicSteering
import Boreas.ReassemblyPoisoned
import Boreas.Recognition
import Boreas.Reload
import Boreas.RememberedReplies
import Boreas.RequestUrls
import Boreas.Resets
import Boreas.ResponseFraming
import Boreas.SealedPackets
import Boreas.ServerSessions
import Boreas.SharedDials
import Boreas.Sticky
import Boreas.StreamLimit
import Boreas.StrippedFields
import Boreas.TooBig
import Boreas.TrailingBytes
import Boreas.TunnelMtu
import Boreas.UdpRoundTrip
import Boreas.VlessReading
import Boreas.WrittenAnswers
