import StatsdBridge.Go.Strings
import StatsdBridge.Go.Utf8
import StatsdBridge.Go.Utf8Encoding
import StatsdBridge.Go.Float
import StatsdBridge.Go.Magnitude
import StatsdBridge.Go.Strconv
import StatsdBridge.Go.Binary64
import StatsdBridge.Go.Bufio
import StatsdBridge.Go.Rounding
import StatsdBridge.Go.Net
import StatsdBridge.Event
import StatsdBridge.Mapper
import StatsdBridge.Line.Tags
import StatsdBridge.Line.Parse
import StatsdBridge.Line.Spec
import StatsdBridge.Line.Sample
import StatsdBridge.Line.Events
import StatsdBridge.Line.Rates
import StatsdBridge.Listener
import StatsdBridge.EventQueue
import StatsdBridge.Listen
import StatsdBridge.Util
