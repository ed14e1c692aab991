import Reactivity.Program.Session
import Reactivity.Proofs.Flushing.Counting
import Reactivity.Proofs.Isolation.Boundaries
import Reactivity.Proofs.Isolation.Carrying
import Reactivity.Proofs.Isolation.Names
import Reactivity.Proofs.Isolation.Offsets
import Reactivity.Proofs.Isolation.Repeat
import Reactivity.Proofs.Isolation.Strictness
import Reactivity.Proofs.Isolation.Trailing
import Reactivity.Proofs.Isolation.Unclosed
import Reactivity.Proofs.Isolation.Verbatim
import Reactivity.Proofs.Memos.Caching
import Reactivity.Proofs.Passes.Requests
import Reactivity.Proofs.Passes.Seating
import Reactivity.Proofs.Registration.Asking
import Reactivity.Proofs.Registration.Covering
import Reactivity.Proofs.Registration.Dropping
import Reactivity.Proofs.Registration.Enrolling
import Reactivity.Proofs.Registration.Listing
import Reactivity.Proofs.Registration.Unread
import Reactivity.Proofs.Registration.Untracked
import Reactivity.Proofs.Stores.Cancelling
import Reactivity.Proofs.Stores.Replacing
import Reactivity.Proofs.Updates.Attached
import Reactivity.Proofs.Updates.Capping
import Reactivity.Proofs.Updates.Quiescence
import Reactivity.Proofs.Updates.Recomputation
import Reactivity.Proofs.Updates.Silent
import Reactivity.Proofs.Updates.Watching
import Reactivity.Proofs.Wrapping.Invisible
import Reactivity.Proofs.Reruns.Rerunning
