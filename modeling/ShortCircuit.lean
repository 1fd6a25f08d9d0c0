import ShortCircuit.BothEnds
import ShortCircuit.BodyPhase
import ShortCircuit.SendOrder
import ShortCircuit.MessageBalance
import ShortCircuit.HandleDiscipline
import ShortCircuit.UriAcceptance
import ShortCircuit.AddressConversion
import ShortCircuit.UriOwnership
import ShortCircuit.FailedOpen
import ShortCircuit.AllocationFailure
import ShortCircuit.AllocatorPairing
import ShortCircuit.Delivery
import ShortCircuit.WatcherDispatch
import ShortCircuit.SuccessiveVisits
import ShortCircuit.LoopEnd
import ShortCircuit.RecordTools
