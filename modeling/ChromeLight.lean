import ChromeLight.Lib.Forest
import ChromeLight.Lib.While
import ChromeLight.Lib.LinkedForest
import ChromeLight.Dom
import ChromeLight.Geom
import ChromeLight.Fragment
import ChromeLight.DisplayList
import ChromeLight.Build
import ChromeLight.Lib.Brackets
import ChromeLight.Lemmas.Dom
import ChromeLight.Lemmas.Paint
import ChromeLight.Theorems.Dom
import ChromeLight.Theorems.Paint
import ChromeLight.BoxTree
import ChromeLight.Lemmas.BoxTree
import ChromeLight.Lemmas.BoxForest
import ChromeLight.Theorems.BoxTree
import ChromeLight.Block
import ChromeLight.Lemmas.Margins
import ChromeLight.Lemmas.Block
import ChromeLight.Theorems.Margins
import ChromeLight.Lemmas.Still
import ChromeLight.Lemmas.Outline
import ChromeLight.Theorems.Relative
import ChromeLight.Lemmas.Push
import ChromeLight.Lemmas.Adjoining
import ChromeLight.Theorems.ParentMargins
import ChromeLight.Lemmas.Overflow
import ChromeLight.Theorems.Clip
import ChromeLight.Theorems.Layout
import ChromeLight.Lemmas.Validate
import ChromeLight.Theorems.Validate
import ChromeLight.Theorems.Culling
import ChromeLight.Theorems.Whitespace
import ChromeLight.Theorems.Translation
import ChromeLight.Lib.Scan
import ChromeLight.Prescan
import ChromeLight.Whatwg
import ChromeLight.Lemmas.Prescan
import ChromeLight.Theorems.Prescan
import ChromeLight.Raster
import ChromeLight.Lemmas.Raster
import ChromeLight.Theorems.Raster
import ChromeLight.Theorems.DisplayList
import ChromeLight.Theorems.BoxModel
import ChromeLight.Lib.Stretches
import ChromeLight.Theorems.Lines
import ChromeLight.Lib.PartitionPoint
import ChromeLight.Text
import ChromeLight.Theorems.Text
import ChromeLight.Theorems.Preformatted
import ChromeLight.Lemmas.Boxes
import ChromeLight.Theorems.Nesting
import ChromeLight.Lib.FlatList
import ChromeLight.Sink
import ChromeLight.FlatForest
import ChromeLight.Lemmas.Sink
import ChromeLight.Theorems.Sink
import ChromeLight.Theorems.Borders
import ChromeLight.Lib.Updates
import ChromeLight.Glyphs
import ChromeLight.Lemmas.Glyphs
import ChromeLight.Theorems.Blit
import ChromeLight.Theorems.GlyphRuns
import ChromeLight.Theorems.Traverse
import ChromeLight.Theorems.BeforeSibling
import ChromeLight.Handle
import ChromeLight.Theorems.Handle
import ChromeLight.Serialize
import ChromeLight.Theorems.Serialize
import ChromeLight.Theorems.PrescanPrefix
import ChromeLight.PrescanLoops
import ChromeLight.Lemmas.PrescanLoops
import ChromeLight.Theorems.PrescanLoops
import ChromeLight.Theorems.MarginChains
import ChromeLight.Lib.Machine
import ChromeLight.Lib.Wire
import ChromeLight.Lib.Duplex
import ChromeLight.Ipc
import ChromeLight.Processes
import ChromeLight.TreeSink
import ChromeLight.Encoding
import ChromeLight.Theorems.AnyChild
import ChromeLight.Theorems.Handshake
import ChromeLight.Theorems.TreeSink
import ChromeLight.Theorems.Encoding
import ChromeLight.Theorems.Net
import ChromeLight.Lib.Utf8
import ChromeLight.Viewport
import ChromeLight.Lib.Ascii
import ChromeLight.Fonts
import ChromeLight.Sheets
import ChromeLight.Theorems.Fonts
import ChromeLight.Theorems.Sheets
import ChromeLight.Lemmas.Shaped
import ChromeLight.Pipeline
import ChromeLight.Theorems.Pipeline
import ChromeLight.Lib.Find
import ChromeLight.Reftest
import ChromeLight.Theorems.Reftest
import ChromeLight.Lib.Box
import ChromeLight.Shading
import ChromeLight.Lemmas.Shading
import ChromeLight.Theorems.Shading
import ChromeLight.Lemmas.StylePass
import ChromeLight.Theorems.StylePass
