import ExtensionLowering.Main
import ExtensionLowering.Pipeline
import ExtensionLowering.Proofs.Lowering.PinScope
import ExtensionLowering.Proofs.Lowering.Isolation
import ExtensionLowering.Proofs.Import.Counter
import ExtensionLowering.Proofs.Lowering.DerivationDepth
import ExtensionLowering.Proofs.Lowering.Placement
import ExtensionLowering.Proofs.Lowering.BindParameter
import ExtensionLowering.Proofs.Lowering.Fusion
import ExtensionLowering.Proofs.Import.Retraction
import ExtensionLowering.Proofs.Alias.Interface
import ExtensionLowering.Proofs.Reading.MixedOperators
import ExtensionLowering.Proofs.Alias.Hoisting
import ExtensionLowering.Proofs.Lowering.PinPlacement
import ExtensionLowering.Proofs.Reading.Quotation
import ExtensionLowering.Proofs.Lowering.TraceWalk
import ExtensionLowering.Proofs.Name.Caches
import ExtensionLowering.Proofs.Name.LeastIndex
import ExtensionLowering.Proofs.Name.Register
import ExtensionLowering.Proofs.Config.Discovery
import ExtensionLowering.Proofs.Config.Relative
import ExtensionLowering.Proofs.Config.Replacement
import ExtensionLowering.Proofs.Tree.Shown
