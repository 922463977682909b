import SyncNotes.Foundations.Component
import SyncNotes.Lock.Wakeup
import SyncNotes.Futex.Wakeup
import SyncNotes.Futex.Lists
import SyncNotes.Futex.FastPath
import SyncNotes.Cond.Broadcast
import SyncNotes.Cond.Signal
import SyncNotes.Cond.Destroy
import SyncNotes.Cond.Closing
import SyncNotes.Cxx.UniqueLock
import SyncNotes.Cxx.NotifyAll
import SyncNotes.Worker.Destroy
import SyncNotes.Coroutine.Progress
import SyncNotes.Cond.Drain
import SyncNotes.Coroutine.Nesting
import SyncNotes.Lock.Payload
import SyncNotes.Generator.Completion
import SyncNotes.Stack.Progress
