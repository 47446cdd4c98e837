import Stackwright.Assembly.OptionsJson
import Stackwright.Assembly.Text
import Stackwright.Lowering.Text
import Stackwright.Member.Text
import Stackwright.Program
import Stackwright.Proofs.Lowering.Preservation
import Stackwright.Proofs.Lowering.Verification
import Stackwright.Proofs.Lowering.Acceptance
import Stackwright.Proofs.Lowering.Session
import Stackwright.Proofs.Lowering.Postorder
import Stackwright.Proofs.Lowering.Report
import Stackwright.Proofs.Lowering.Requests
import Stackwright.Proofs.Lowering.Imports
import Stackwright.Proofs.Lowering.Pieces
import Stackwright.Proofs.Lowering.Reading
import Stackwright.Proofs.Generation.Preservation
import Stackwright.Proofs.Generation.Balance
import Stackwright.Proofs.Generation.Pairing
import Stackwright.Proofs.Assembly.Acceptance
import Stackwright.Proofs.Assembly.Failure
import Stackwright.Proofs.Assembly.Limits
import Stackwright.Proofs.Assembly.Locals
import Stackwright.Proofs.Assembly.Members
import Stackwright.Proofs.Assembly.Options
import Stackwright.Proofs.Assembly.Resolution
import Stackwright.Proofs.Fault.Locations
import Stackwright.Proofs.Member.Building
import Stackwright.Proofs.Ty.Grammar
import Stackwright.Proofs.Ty.Layers
