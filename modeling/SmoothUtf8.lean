import SmoothUtf8.Corruption
import SmoothUtf8.Harness
import SmoothUtf8.HostOrder
import SmoothUtf8.LoadBounds
import SmoothUtf8.LoopInvariants
import SmoothUtf8.OutsideValidators
import SmoothUtf8.Relocation
import SmoothUtf8.TableAutomaton
import SmoothUtf8.VerusSurface
