import WorkStealing.Machine
import WorkStealing.Crew.Script
import WorkStealing.Queue.Fifo
import WorkStealing.Queue.Script
import WorkStealing.Ring.Calls
import WorkStealing.Linked.Basic
import WorkStealing.Semaphore.Script
import WorkStealing.Gate.Script
import WorkStealing.Latch.Script
import WorkStealing.Blocking.Script
import WorkStealing.Blocking.Contention
import WorkStealing.Task
import WorkStealing.Pool.Push
import WorkStealing.Pool.Worker
import WorkStealing.Pool.Script
import WorkStealing.Pool.Config
import WorkStealing.Pool.Stats
import WorkStealing.Proofs.Crew.Run
import WorkStealing.Proofs.Ring.Place
import WorkStealing.Proofs.Ring.Stage
import WorkStealing.Proofs.Ring.Step
import WorkStealing.Proofs.Ring.Delivery
import WorkStealing.Proofs.Gate.Balance
import WorkStealing.Proofs.Blocking.Watch
import WorkStealing.Proofs.Blocking.Kept
import WorkStealing.Proofs.Blocking.Wakeup
import WorkStealing.Proofs.Ring.Stock
import WorkStealing.Proofs.Pool.View
import WorkStealing.Proofs.Pool.Sound
import WorkStealing.Proofs.Pool.Advance
import WorkStealing.Proofs.Pool.Step
import WorkStealing.Proofs.Pool.Erase
import WorkStealing.Proofs.Pool.Stack
import WorkStealing.Proofs.Pool.History
import WorkStealing.Proofs.Pool.Refusal
import WorkStealing.Proofs.Pool.Once
import WorkStealing.Proofs.Pool.Freeing
import WorkStealing.Proofs.Blocking.Account
import WorkStealing.Proofs.Blocking.Overtaking
import WorkStealing.Proofs.Blocking.Closing
import WorkStealing.Proofs.Blocking.Drain
import WorkStealing.Proofs.Blocking.Verdict
import WorkStealing.Proofs.Pool.Outweighed
import WorkStealing.Proofs.Pool.Conserve
import WorkStealing.Proofs.Pool.Stranded
import WorkStealing.Proofs.Pool.Closing
import WorkStealing.Proofs.Pool.Joining
import WorkStealing.Proofs.Semaphore.Conserve
import WorkStealing.Proofs.Queue.Serial
import WorkStealing.Proofs.Ring.Serial
import WorkStealing.Proofs.Latch.Opening
import WorkStealing.Linked.Calls
import WorkStealing.Proofs.Linked.Delivery
import WorkStealing.Proofs.Ring.Verdict
import WorkStealing.Proofs.Crew.Alone
import WorkStealing.Proofs.Queue.Plain
import WorkStealing.Proofs.Blocking.Settling
import WorkStealing.Proofs.Blocking.Confluence
import WorkStealing.Proofs.Pool.Statistics
import WorkStealing.Proofs.Crew.Lone
import WorkStealing.Proofs.Ring.Lone
import WorkStealing.Proofs.Pool.Dealing
import WorkStealing.Proofs.Pool.Emptying
import WorkStealing.Proofs.Pool.Ranging
import WorkStealing.Proofs.Pool.Completion
import WorkStealing.Proofs.Ring.Bijection
import WorkStealing.Proofs.Gate.Account
import WorkStealing.Proofs.Gate.Settling
import WorkStealing.Proofs.Ring.Line
import WorkStealing.Proofs.Semaphore.Batch
import WorkStealing.Proofs.Latch.Fields
import WorkStealing.Proofs.Script
