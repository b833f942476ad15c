import CursorRegex.Regex
import CursorRegex.Search.Path
import CursorRegex.Proofs.Outcome
import CursorRegex.Proofs.Pattern.Term
import CursorRegex.Proofs.Pattern.Rearranged
import CursorRegex.Proofs.Pattern.TreeTerm
import CursorRegex.Proofs.Pattern.Groups
import CursorRegex.Proofs.Pattern.Mirror
import CursorRegex.Proofs.Pattern.TreeReader
import CursorRegex.Proofs.Pattern.Reading
import CursorRegex.Proofs.Pattern.Defects
import CursorRegex.Proofs.Pattern.Precedence
import CursorRegex.Proofs.Pattern.References
import CursorRegex.Proofs.Pattern.Spelling
import CursorRegex.Proofs.Pattern.Bracketed
import CursorRegex.Proofs.Pattern.Cost
import CursorRegex.Proofs.Pattern.Blame
import CursorRegex.Proofs.Pattern.Shortfall
import CursorRegex.Proofs.Pattern.Tiers
import CursorRegex.Proofs.Pattern.Origins
import CursorRegex.Proofs.Pattern.Misspelled
import CursorRegex.Proofs.Pattern.Located
import CursorRegex.Proofs.Program.Trail
import CursorRegex.Proofs.Program.Shortened
import CursorRegex.Proofs.Program.Layout
import CursorRegex.Proofs.Program.Assembled
import CursorRegex.Proofs.Program.Links
import CursorRegex.Proofs.Program.Encoding
import CursorRegex.Proofs.Program.Halves
import CursorRegex.Proofs.Program.Mirrored
import CursorRegex.Proofs.Program.Admitted
import CursorRegex.Proofs.Program.Blamed
import CursorRegex.Proofs.Program.Growth
import CursorRegex.Proofs.Program.Paths
import CursorRegex.Proofs.Program.Runs
import CursorRegex.Proofs.Program.Acceptance
import CursorRegex.Proofs.Program.Visits
import CursorRegex.Proofs.Program.Roomier
import CursorRegex.Proofs.Program.Accounting
import CursorRegex.Proofs.Program.Redirected
import CursorRegex.Proofs.Program.Faultless
import CursorRegex.Proofs.Program.Heights
import CursorRegex.Proofs.Program.Referenced
import CursorRegex.Proofs.Program.Pointed
import CursorRegex.Proofs.Search.Order
import CursorRegex.Proofs.Search.Threads
import CursorRegex.Proofs.Search.Running
import CursorRegex.Proofs.Search.Queue
import CursorRegex.Proofs.Search.Roster
import CursorRegex.Proofs.Search.Lockstep
import CursorRegex.Proofs.Search.View
import CursorRegex.Proofs.Search.Following
import CursorRegex.Proofs.Search.Lap
import CursorRegex.Proofs.Search.Ranges
import CursorRegex.Proofs.Search.Queries
import CursorRegex.Proofs.Search.Choice
import CursorRegex.Proofs.Search.Heredity
import CursorRegex.Proofs.Search.Answer
import CursorRegex.Proofs.Search.Recorded
import CursorRegex.Proofs.Search.Independence
import CursorRegex.Proofs.Search.Sessions
import CursorRegex.Proofs.Search.Reads
import CursorRegex.Proofs.Search.Capacity
import CursorRegex.Proofs.Search.Withheld
import CursorRegex.Proofs.Search.Twins
import CursorRegex.Proofs.Search.Reflection
import CursorRegex.Proofs.Search.Forward
import CursorRegex.Proofs.Search.Backward
import CursorRegex.Proofs.Search.Unskipped
import CursorRegex.Proofs.Search.Moves
import CursorRegex.Proofs.Search.Halting
import CursorRegex.Proofs.Search.Tried
