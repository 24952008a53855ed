import MiniJava.Compile
import MiniJava.Proofs.Label
import MiniJava.Proofs.Numeral
import MiniJava.Proofs.Registers
import MiniJava.Proofs.Semantics.World
import MiniJava.Proofs.Semantics.Source
import MiniJava.Proofs.Semantics.Tac
import MiniJava.Proofs.Semantics.Jasmin
import MiniJava.Proofs.Lowering.Supply
import MiniJava.Proofs.Lowering.Simulation
import MiniJava.Proofs.Lowering.Rules
import MiniJava.Proofs.Lowering.Expr
import MiniJava.Proofs.Lowering.Stmt
import MiniJava.Proofs.Assembly.Emit
import MiniJava.Proofs.Assembly.Instr
import MiniJava.Proofs.Assembly.Height
import MiniJava.Proofs.Assembly.Path
import MiniJava.Proofs.Lowering.Outline
import MiniJava.Proofs.Lowering.Session
import MiniJava.Proofs.Lowering.Calls
import MiniJava.Proofs.Linking
import MiniJava.Proofs.Lowering.Variables
import MiniJava.Proofs.Lowering.Parts
import MiniJava.Proofs.Lowering.Inventory
import MiniJava.Proofs.Assembly.Refusal
import MiniJava.Proofs.Consistency
import MiniJava.Proofs.Annotation
import MiniJava.Proofs.Typing
import MiniJava.Proofs.Lowering.Path
import MiniJava.Proofs.Lowering.Assigned
import MiniJava.Proofs.Lowering.Acceptance
import MiniJava.Proofs.Progress
import MiniJava.Proofs.Assembly.Compare
import MiniJava.Proofs.Assembly.Layout
import MiniJava.Proofs.Assembly.Mirror
import MiniJava.Proofs.Assembly.Increment
import MiniJava.Proofs.Lowering.Parallel
import MiniJava.Proofs.Independence
import MiniJava.Proofs.Lowering.LastInstr
import MiniJava.Proofs.Symbols
import MiniJava.Proofs.Lowering.Destination
import MiniJava.Proofs.Lowering.Footprint
import MiniJava.Proofs.Lowering.Packing
import MiniJava.Proofs.Import
import MiniJava.Proofs.Assembly.Constant
import MiniJava.Proofs.Readable
import MiniJava.Proofs.Descriptor
import MiniJava.Proofs.Text.Operand
import MiniJava.Proofs.Text.Instr
