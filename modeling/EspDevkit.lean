import EspDevkit.Audio.FifoRuns
import EspDevkit.Audio.MixerExact
import EspDevkit.Audio.OpusPacket
import EspDevkit.Audio.ResamplerRuns
import EspDevkit.Compression.LzwReader
import EspDevkit.Crypto.CaBundleRuns
import EspDevkit.Crypto.CertificateReading
import EspDevkit.Crypto.ChainPaths
import EspDevkit.Crypto.DerRoundTrip
import EspDevkit.Crypto.Tls.Closing
import EspDevkit.Crypto.Tls.StreamSplits
import EspDevkit.Epd.Lines
import EspDevkit.Epd.Wakeups
import EspDevkit.EspHosted.RpcRuns
import EspDevkit.Executor.ChannelOrder
import EspDevkit.Executor.TaskRuns
import EspDevkit.Executor.Timers
import EspDevkit.Gfx.DamageCover
import EspDevkit.Gfx.GlyphServe
import EspDevkit.Gfx.LevelsRoundTrip
import EspDevkit.Gfx.StartOp
import EspDevkit.Gfx.TextFit
import EspDevkit.Host.RelayRuns
import EspDevkit.Image.ResizeAgrees
import EspDevkit.Media.AviPoints
import EspDevkit.Media.LacingDecode
import EspDevkit.Media.PublishedCursor
import EspDevkit.Net.Checksum
import EspDevkit.Net.CounterRuns
import EspDevkit.Net.DhcpLease
import EspDevkit.Net.DnsRuns
import EspDevkit.Net.JoiningLoop
import EspDevkit.Net.LifeCycle
import EspDevkit.Net.ListenerRuns
import EspDevkit.Net.ReassemblyRuns
import EspDevkit.Net.RingQueue
import EspDevkit.Net.SavedNetworks
import EspDevkit.Net.SendOrder
import EspDevkit.Net.StreamIntegrity
import EspDevkit.Net.WireEdge
import EspDevkit.Nvs.StoreRuns
import EspDevkit.Protobuf.Block
import EspDevkit.Sync.RawLockRuns
import EspDevkit.Ui.FlexShares
import EspDevkit.Ui.GestureRuns
import EspDevkit.Ui.SlotRuns
import EspDevkit.Usb.AudioRings
import EspDevkit.Usb.ConfigDescriptors
import EspDevkit.Usb.Ep0Runs
import EspDevkit.Usb.HidRuns
import EspDevkit.Usb.MscContract
import EspDevkit.Usb.SimRuns
import EspDevkit.Wifi.ManagerRuns
