import MiniJam.Main
import MiniJam.Proofs.Code.Evaluated
import MiniJam.Proofs.Code.Operands
import MiniJam.Proofs.Code.Tables
import MiniJam.Proofs.Config
import MiniJam.Proofs.Debugger
import MiniJam.Proofs.Listing
import MiniJam.Proofs.Machine.Failing
import MiniJam.Proofs.Machine.Faults
import MiniJam.Proofs.Machine.Integers
import MiniJam.Proofs.Polling
import MiniJam.Proofs.Session.Frame
import MiniJam.Proofs.Simulation.Null
import MiniJam.Proofs.Simulation.Prologue
import MiniJam.Proofs.Simulation.Relocated
import MiniJam.Proofs.Token.Lossless
import MiniJam.Proofs.Token.Printed
import MiniJam.Proofs.Tree.Viable
import MiniJam.Proofs.Tree.Visits
import MiniJam.Proofs.Typing.Again
import MiniJam.Proofs.Typing.Undeclared
