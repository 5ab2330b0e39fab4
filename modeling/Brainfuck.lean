import Brainfuck.CommandLine.Simulation
import Brainfuck.Engine.Session
import Brainfuck.Engine.Tabled
import Brainfuck.Machine.Future
import Brainfuck.Machine.Sequential
import Brainfuck.Main
import Brainfuck.Program.Comments
import Brainfuck.Program.JumpTable
import Brainfuck.Proofs.Agreement
import Brainfuck.Proofs.Cancellation
import Brainfuck.Proofs.Conservation
import Brainfuck.Proofs.CountingLoops
import Brainfuck.Proofs.Exclusion
import Brainfuck.Proofs.Faults
import Brainfuck.Proofs.Forwarding
import Brainfuck.Proofs.Futures
import Brainfuck.Proofs.Isolation
import Brainfuck.Proofs.JumpTable
import Brainfuck.Proofs.Memory
import Brainfuck.Proofs.Numerals
import Brainfuck.Proofs.Partners
import Brainfuck.Proofs.Positional
import Brainfuck.Proofs.Precedence
import Brainfuck.Proofs.Renewal
import Brainfuck.Proofs.Reports
import Brainfuck.Proofs.Reversal
import Brainfuck.Proofs.Safety
import Brainfuck.Proofs.Searches
import Brainfuck.Proofs.Sequencing
import Brainfuck.Proofs.Sink
import Brainfuck.Proofs.Stalls
import Brainfuck.Proofs.StandardOutput
import Brainfuck.Proofs.Stops
import Brainfuck.Proofs.StraightLine
import Brainfuck.Proofs.Stripping
import Brainfuck.Proofs.Trace
import Brainfuck.Proofs.Verdicts
import Brainfuck.Proofs.Walks
