import Zzdwm.Dwm.ClientLists
import Zzdwm.Dwm.Selection
import Zzdwm.Dwm.NullSelection
import Zzdwm.Dwm.Restoring
import Zzdwm.Dwm.TagSettings
import Zzdwm.Dwm.ClientTags
import Zzdwm.Emacs.Session
import Zzdwm.Emacs.Hexl
import Zzdwm.Emacs.UndoStacks
import Zzdwm.Lib.Journal
import Zzdwm.Emacs.Coherence
import Zzdwm.Emacs.Display
import Zzdwm.Agent.Encoding
import Zzdwm.Agent.Approval
import Zzdwm.Agent.Transcript
import Zzdwm.Lisp.RoundTrip
import Zzdwm.Lisp.RootEnv
import Zzdwm.Emacs.Joining
import Zzdwm.Agent.Command
import Zzdwm.Emacs.Columns
import Zzdwm.Emacs.LineUpdate
import Zzdwm.Emacs.Killing
import Zzdwm.Emacs.HexlTyping
import Zzdwm.Emacs.HexlDumps
import Zzdwm.Emacs.Parens
import Zzdwm.Emacs.Blanks
import Zzdwm.Emacs.TabStops
import Zzdwm.Emacs.Paths
import Zzdwm.Emacs.Osc52
import Zzdwm.Emacs.KillBuffer
import Zzdwm.Emacs.CaseRegion
import Zzdwm.Emacs.RectangleOps
import Zzdwm.Emacs.RectUndo
import Zzdwm.Emacs.Rectangle
import Zzdwm.Emacs.Search
import Zzdwm.Emacs.ReplaceRegion
import Zzdwm.Emacs.BackSearch
import Zzdwm.Dwm.TagSwaps
import Zzdwm.Dwm.Titles
import Zzdwm.Dwm.ShiftView
import Zzdwm.Dwm.StackTurns
import Zzdwm.Dwm.FocusSame
import Zzdwm.Dwm.GridCells
import Zzdwm.Dwm.GridLimits
import Zzdwm.Dwm.TileSlots
import Zzdwm.Dwm.TileRoom
import Zzdwm.Dwm.TileFits
import Zzdwm.Agent.Outputs
import Zzdwm.Ai.Chunked
import Zzdwm.Ai.Configure
import Zzdwm.Emacs.TagTargets
import Zzdwm.Ai.Request
import Zzdwm.Lisp.HostCalls
import Zzdwm.Ai.Response
import Zzdwm.Emacs.TagFile
import Zzdwm.Emacs.EchoLine
import Zzdwm.Emacs.Utf8Codes
import Zzdwm.Emacs.ColumnMaps
import Zzdwm.Emacs.UndoCounts
import Zzdwm.Emacs.SaveFailures
import Zzdwm.Dwm.MonSwaps
import Zzdwm.Agent.Steering
import Zzdwm.Emacs.BufferMenu
import Zzdwm.Regexp.Match
import Zzdwm.Regexp.Programs
import Zzdwm.Regexp.Grammar
import Zzdwm.Regexp.Emission
import Zzdwm.Regexp.Running
import Zzdwm.Regexp.Descent
import Zzdwm.Regexp.Searching
import Zzdwm.Regexp.Substitution
import Zzdwm.Emacs.RegSearch
import Zzdwm.Emacs.SearchReplace
import Zzdwm.Emacs.Timeline
