import X86Encoding.Main
import X86Encoding.Proofs.Json.Checked
import X86Encoding.Proofs.Opcode.RoundTrip
import X86Encoding.Proofs.Prefix.Edits
import X86Encoding.Proofs.Prefix.Lossless
import X86Encoding.Proofs.Table.Appending
import X86Encoding.Proofs.Table.Bounds
import X86Encoding.Proofs.Table.Extension
import X86Encoding.Proofs.Table.Facts
import X86Encoding.Proofs.Table.Growth
import X86Encoding.Proofs.Table.Order
import X86Encoding.Proofs.Table.Tiling
import X86Encoding.Proofs.Table.VexForms
import X86Encoding.Proofs.Code.Precedence
import X86Encoding.Proofs.Opcode.Satisfiable
import X86Encoding.Proofs.Table.Loading
import X86Encoding.Proofs.Prefix.Prepending
import X86Encoding.Proofs.Opcode.Generality
import X86Encoding.Proofs.Prefix.LeadBytes
import X86Encoding.Proofs.Table.Truncation
import X86Encoding.Proofs.Code.Contexts
import X86Encoding.Proofs.Opcode.VexMatching
import X86Encoding.Proofs.Table.Literals
import X86Encoding.Proofs.Code.Floating
import X86Encoding.Proofs.Pattern.Evaluation
import X86Encoding.Proofs.Pattern.Constants
import X86Encoding.Proofs.Code.Composition
import X86Encoding.Proofs.Row.Operands
import X86Encoding.Proofs.CommandLine.Checking
import X86Encoding.Proofs.CommandLine.Bytes
import X86Encoding.Proofs.CommandLine.Bindings
import X86Encoding.Proofs.Pattern.Partition
import X86Encoding.Proofs.Pattern.Printed
