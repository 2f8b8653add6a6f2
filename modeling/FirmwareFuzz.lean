import FirmwareFuzz.Harness
import FirmwareFuzz.Mqtt.Framing
import FirmwareFuzz.Transport.Autopilot
import FirmwareFuzz.Transport.Readiness
import FirmwareFuzz.Transport.Segmentation
import FirmwareFuzz.Mqtt.Publish
import FirmwareFuzz.Mqtt.Validity
import FirmwareFuzz.Harness.Loop
import FirmwareFuzz.Harness.Persistence
import FirmwareFuzz.Lib.CSearch
import FirmwareFuzz.Lib.CPrint
import FirmwareFuzz.Lib.CStruct
import FirmwareFuzz.Iot.Parser
import FirmwareFuzz.Iot.Strings
import FirmwareFuzz.Iot.Messages
import FirmwareFuzz.Iot.Safety
import FirmwareFuzz.Iot.Warning
import FirmwareFuzz.Transport.Acknowledge
import FirmwareFuzz.Harness.Options
import FirmwareFuzz.Transport.Bounds
import FirmwareFuzz.Harness.Accesses
import FirmwareFuzz.Lib.CDecimal
import FirmwareFuzz.Iot.Json
import FirmwareFuzz.Iot.Lookup
import FirmwareFuzz.Iot.Numbers
import FirmwareFuzz.Iot.Failures
import FirmwareFuzz.Lwip
import FirmwareFuzz.PacketParser
import FirmwareFuzz.Lib.Lcg
import FirmwareFuzz.Lwip.Rand
import FirmwareFuzz.Lib.Endian
import FirmwareFuzz.Lib.PcapFile
import FirmwareFuzz.Lwip.Pcap
import FirmwareFuzz.Lwip.Input
import FirmwareFuzz.Lwip.Conservation
import FirmwareFuzz.Lwip.Runs
import FirmwareFuzz.Lwip.Script
import FirmwareFuzz.Transport.Dynamic
import FirmwareFuzz.Lib.Monitor
import FirmwareFuzz.EventGroups
import FirmwareFuzz.Transport.Framed
import FirmwareFuzz.Lib.COverrun
import FirmwareFuzz.Iot.FuzzTests
import FirmwareFuzz.Lib.Heap
import FirmwareFuzz.Transport.Memory
