import Mjmech.Binary.Round
import Mjmech.Binary.Value
import Mjmech.Gimbal.Stabilizer
import Mjmech.Gimbal.Run
import Mjmech.Gimbal.Arming
import Mjmech.Tplot.TreeView
import Mjmech.Tplot.PlotView
import Mjmech.Tplot.MechRender
import Mjmech.Tplot.Schema
import Mjmech.Tplot.Retrieve
import Mjmech.Tplot.Format
import Mjmech.Tplot.Value
import Mjmech.Tplot.Timeline
import Mjmech.Tplot.Tokens
