import Corsl.Conc.Sys
import Corsl.Conc.History
import Corsl.Conc.Lockstep
import Corsl.Conc.Ledger
import Corsl.Conc.Owner
import Corsl.Conc.Counted
import Corsl.Conc.Latch
import Corsl.Conc.Roster
import Corsl.Conc.Measure
import Corsl.Conc.Waiting
import Corsl.Conc.Diamond
import Corsl.Conc.Simulation
import Corsl.Conc.Ends
import Corsl.Conc.Handshake
import Corsl.Conc.Mailbox
import Corsl.Basic
import Corsl.Queue.Async
import Corsl.Queue.AsyncLemmas
import Corsl.Queue.Multi
import Corsl.Queue.MultiLemmas
import Corsl.Queue.Equivalence
import Corsl.Queue.Drain
import Corsl.Queue.Failure
import Corsl.Queue.MultiFailure
import Corsl.Queue.Unsubmitted
import Corsl.Queue.MultiUnsubmitted
import Corsl.Queue.Mailbox
import Corsl.Queue.MultiMailbox
import Corsl.Cancel.Basic
import Corsl.Cancel.Moves
import Corsl.Cancel.Invariants
import Corsl.Cancel.Tokens
import Corsl.Cancel.Subscriptions
import Corsl.Cancel.Connected
import Corsl.Cancel.Forest
import Corsl.Cancel.Owners
import Corsl.Cancel.Threads
import Corsl.Cancel.Stages
import Corsl.Cancel.Turns
import Corsl.Cancel.Tasks
import Corsl.Cancel.Sections
import Corsl.Cancel.Callbacks
import Corsl.Cancel.Threading
import Corsl.Cancel.Visits
import Corsl.Cancel.Deadlock
import Corsl.Cancel.Failing
import Corsl.Cancel.Sweep
import Corsl.Cancel.WaitCancelled
import Corsl.Cancel.WaitResumed
import Corsl.Cancel.WaitBroken
import Corsl.Timers.Basic
import Corsl.Timers.Lemmas
import Corsl.Timers.Endings
import Corsl.Timers.Catchable
import Corsl.Timers.Answers
import Corsl.Timers.Arming
import Corsl.Timers.Inline
import Corsl.Timers.AutoCancel
import Corsl.Timers.Lifetime
import Corsl.Timers.Destructor
import Corsl.Future.Basic
import Corsl.Future.Moves
import Corsl.Future.Lemmas
import Corsl.Future.Completion
import Corsl.Future.Cells
import Corsl.Future.Monitor
import Corsl.Future.Objects
import Corsl.Future.Locals
import Corsl.Future.Promise
import Corsl.Future.Lifetime
import Corsl.Coroutine.Body
import Corsl.Coroutine.Ideal
import Corsl.Coroutine.Network
import Corsl.Coroutine.Refines
import Corsl.Coroutine.Schedules
import Corsl.Coroutine.Pipelines
import Corsl.Coroutine.Final
import Corsl.Coroutine.Deadlocks
import Corsl.Coroutine.Threads
import Corsl.Shared.Basic
import Corsl.Shared.Lemmas
import Corsl.Shared.Outcome
import Corsl.Shared.Unsubmitted
import Corsl.Shared.Lifetime
import Corsl.WhenAll.Basic
import Corsl.WhenAll.Lemmas
import Corsl.WhenAll.FirstException
import Corsl.WhenAll.Packed
import Corsl.WhenAny.Basic
import Corsl.WhenAny.Lemmas
import Corsl.WhenAny.Range
import Corsl.Generator.Basic
import Corsl.Generator.Moves
import Corsl.Generator.Ending
import Corsl.Generator.HandOver
import Corsl.Generator.Skipping
import Corsl.Io.Errors
import Corsl.Io.Resumable
import Corsl.Io.Timeout
import Corsl.Io.Cancellable
import Corsl.Io.Signal
import Corsl.Io.Outcomes
import Corsl.Errors.Snapshot
