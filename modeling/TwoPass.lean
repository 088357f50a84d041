import TwoPass.Main
import TwoPass.Object.Image
import TwoPass.Proofs.Encoding
import TwoPass.Proofs.Reachable
import TwoPass.Proofs.Linking
import TwoPass.Proofs.TableHistory
import TwoPass.Proofs.Merging
import TwoPass.Proofs.OperandSlots
import TwoPass.Proofs.CodeSize
import TwoPass.Proofs.Addresses
import TwoPass.Proofs.Names
import TwoPass.Proofs.ObjectImage
import TwoPass.Proofs.Numerals
import TwoPass.Proofs.ArbitraryLines
import TwoPass.Proofs.Records
import TwoPass.Proofs.Outputs
import TwoPass.Proofs.BranchTargets
import TwoPass.Proofs.ConstantOrder
import TwoPass.Proofs.Relocation
import TwoPass.Proofs.Respelling
import TwoPass.Proofs.Expressible
import TwoPass.Proofs.Refusals
import TwoPass.Proofs.SourceOrder
import TwoPass.Proofs.Extensions
import TwoPass.Proofs.SingleSegment
import TwoPass.Proofs.AddressingModes
import TwoPass.Proofs.ConstantValues
import TwoPass.Proofs.DiskWrites
import TwoPass.Proofs.SessionFiles
import TwoPass.Proofs.Resumption
import TwoPass.Proofs.TableEntries
import TwoPass.Proofs.TableDefinitions
import TwoPass.Proofs.OpcodeTexts
import TwoPass.Proofs.PlainLines
import TwoPass.Proofs.OperandSpellings
import TwoPass.Proofs.CounterRange
import TwoPass.Proofs.ColouredRows
import TwoPass.Proofs.Literals
import TwoPass.Proofs.SymbolHistory
