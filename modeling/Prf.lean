import Prf.System
import Prf.Proof.Programs
import Prf.Proof.RankBased
import Prf.Proof.CellHistory
import Prf.Proof.StreamLoop
import Prf.Proof.AddressOrder
import Prf.Proof.Feedback
import Prf.Proof.Retention
import Prf.Proof.Sequential
import Prf.Proof.Agreement
import Prf.Proof.BuildOrder
import Prf.Proof.PlannerStates
import Prf.Proof.Rounds
import Prf.Proof.QueueSteps
import Prf.Proof.StopExecution
import Prf.Proof.WorkConserving
import Prf.Proof.Blocking
import Prf.Proof.Deletion
import Prf.Proof.Correctness
import Prf.Proof.Books
import Prf.Proof.Waiter
import Prf.Proof.Stopping
