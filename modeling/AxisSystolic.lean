import AxisSystolic.Sa.Hold
import AxisSystolic.Sa.Progress
import AxisSystolic.Sa.Operands
import AxisSystolic.Sa.Accumulate
import AxisSystolic.Top.Jobs
import AxisSystolic.Top.SkidBuffer
import AxisSystolic.Top.AdapterAny
import AxisSystolic.Axil.ConfigPath
import AxisSystolic.Top.Mm2s
import AxisSystolic.Engine.WriteRun
import AxisSystolic.Dma.Launch
import AxisSystolic.Dma.Completion
import AxisSystolic.Dma.Mixing
import AxisSystolic.Dma.Copies
import AxisSystolic.Firmware.Lanes
import AxisSystolic.Firmware.Golden
import AxisSystolic.Firebridge.Ddr
import AxisSystolic.Firebridge.Windows
import AxisSystolic.Ibex.Delivery
import AxisSystolic.Ibex.SaConfig
import AxisSystolic.Ibex.Transactions
import AxisSystolic.Ibex.Protocol
import AxisSystolic.Ibex.Throttle
