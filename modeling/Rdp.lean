import Rdp.Model.Error
import Rdp.Model.Stream
import Rdp.Model.Data
import Rdp.Model.Unicode
import Rdp.Core.Per
import Rdp.Core.Gcc
import Rdp.Core.Gcc.Response
import Rdp.Core.License
import Rdp.Codec.Rle32
import Rdp.Codec.Rle32.Encoding
import Rdp.Codec.Rle32.RoundTrip
import Rdp.Codec.Rle16
import Rdp.Codec.Rle16.Header
import Rdp.Codec.Rle16.Pixels
import Rdp.Codec.Rle16.Repeat
import Rdp.Codec.Rle16.Simulation
import Rdp.Codec.Rle16.Safety
import Rdp.Codec.Rle16.Orders
import Rdp.Codec.Rle16.Parse
import Rdp.Codec.Rle16.RoundTrip
import Rdp.Codec.Rgb565
import Rdp.Bin.Mstsc
import Rdp.Bin.Mstsc.Keyboard
