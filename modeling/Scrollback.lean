import Scrollback.Main
import Scrollback.Program.Directory
import Scrollback.Toml.Document
import Scrollback.Ring.Load
import Scrollback.Ring.Listing
import Scrollback.Ring.Rewrap
import Scrollback.Ring.Edit
import Scrollback.Ring.Trim
import Scrollback.Ring.Contents
import Scrollback.Archive.Freeze
import Scrollback.Archive.Thaw
import Scrollback.Archive.Copy
import Scrollback.Archive.Basic
import Scrollback.Log.File
import Scrollback.Log.Memory
import Scrollback.Log.Switched
import Scrollback.Position
import Scrollback.Row.Line
import Scrollback.Row.Wrap
import Scrollback.Unicode.Rules
import Scrollback.Proofs.Window
import Scrollback.Proofs.Window.Growth
import Scrollback.Proofs.Invariant
import Scrollback.Proofs.Log.Calls
import Scrollback.Proofs.Log.File
import Scrollback.Proofs.Log.Memory
import Scrollback.Proofs.Log.Offset
import Scrollback.Proofs.Log.Switched
import Scrollback.Proofs.Row.End
import Scrollback.Proofs.Row.Greedy
import Scrollback.Proofs.Row.Built
import Scrollback.Proofs.Row.Paragraph
import Scrollback.Proofs.Row.Relocate
import Scrollback.Proofs.Row.Styled
import Scrollback.Proofs.Row.Tabs
import Scrollback.Proofs.Row.Wrap
import Scrollback.Proofs.Archive.Atomic
import Scrollback.Proofs.Archive.Consistent
import Scrollback.Proofs.Archive.Contents
import Scrollback.Proofs.Archive.Draft
import Scrollback.Proofs.Archive.Encoding
import Scrollback.Proofs.Archive.Format
import Scrollback.Proofs.Archive.Freeze
import Scrollback.Proofs.Archive.Holds
import Scrollback.Proofs.Archive.Lossless
import Scrollback.Proofs.Archive.Read
import Scrollback.Proofs.Archive.Refreeze
import Scrollback.Proofs.Archive.Relayout
import Scrollback.Proofs.Archive.Release
import Scrollback.Proofs.Archive.Runs
import Scrollback.Proofs.Archive.Sparse
import Scrollback.Proofs.Archive.Stepwise
import Scrollback.Proofs.Archive.Text
import Scrollback.Proofs.Archive.Thaw
import Scrollback.Proofs.Layout.Ascii
import Scrollback.Proofs.Layout.Division
import Scrollback.Proofs.Layout.Entries
import Scrollback.Proofs.Layout.Locate
import Scrollback.Proofs.Layout.Markers
import Scrollback.Proofs.Layout.Paragraph
import Scrollback.Proofs.Layout.Place
import Scrollback.Proofs.Layout.Styled
import Scrollback.Proofs.Layout.Text
import Scrollback.Proofs.Program.Output
import Scrollback.Proofs.Ring.Answers
import Scrollback.Proofs.Ring.Ascii
import Scrollback.Proofs.Ring.Attainable
import Scrollback.Proofs.Ring.Bounds
import Scrollback.Proofs.Ring.Capacity
import Scrollback.Proofs.Ring.Consistent
import Scrollback.Proofs.Ring.Contents
import Scrollback.Proofs.Ring.Edit
import Scrollback.Proofs.Ring.Export
import Scrollback.Proofs.Ring.Freeze
import Scrollback.Proofs.Ring.Holds
import Scrollback.Proofs.Ring.Insert
import Scrollback.Proofs.Ring.Intact
import Scrollback.Proofs.Ring.Load
import Scrollback.Proofs.Ring.Markers
import Scrollback.Proofs.Ring.Policy
import Scrollback.Proofs.Ring.Pushed
import Scrollback.Proofs.Ring.Reachable
import Scrollback.Proofs.Ring.Recover
import Scrollback.Proofs.Ring.Return
import Scrollback.Proofs.Ring.Rewrap
import Scrollback.Proofs.Ring.Run
import Scrollback.Proofs.Ring.Shows
import Scrollback.Proofs.Ring.Stepwise
import Scrollback.Proofs.Ring.Stored
import Scrollback.Proofs.Ring.StoredReachable
import Scrollback.Proofs.Ring.Thaw
import Scrollback.Proofs.Ring.Trim
import Scrollback.Proofs.Archive.Reader
