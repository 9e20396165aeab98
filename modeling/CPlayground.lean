import CPlayground.Serial.Items
import CPlayground.Serial.ObjectStream
import CPlayground.Serial.AllocFailure
import CPlayground.Serial.Reuse
import CPlayground.Serial.TwoLoops
import CPlayground.Serial.Compose
import CPlayground.Logger
import CPlayground.PosixCp
import CPlayground.ProdCons.Teardown
import CPlayground.Batch.Finish
import CPlayground.Thpool.Waiters
import CPlayground.Thpool.Independence
import CPlayground.Thpool.Startup
import CPlayground.Thpool.Counters
import CPlayground.Thpool.HeldLocks
import CPlayground.Thpool.Fifo
import CPlayground.Thpool.Scheduler
import CPlayground.Thpool.Deadlock
import CPlayground.Thpool.Drain
import CPlayground.Thpool.Shutdown
import CPlayground.Condvar.Ending
import CPlayground.SignalTimer.Ending
