import SpirvLink.Text.Offset
import SpirvLink.Main
import SpirvLink.Proofs.Text.Renaming
import SpirvLink.Proofs.Text.Words
import SpirvLink.Proofs.Line.WellSpaced
import SpirvLink.Proofs.CallGraph.Chain
import SpirvLink.Proofs.CommandLine
import SpirvLink.Proofs.Function
import SpirvLink.Proofs.Fusion.HashConsing
import SpirvLink.Proofs.Inlining.Coverage
import SpirvLink.Proofs.Inlining.Hygiene
import SpirvLink.Proofs.Inlining.SingleAssignment
import SpirvLink.Proofs.Inlining.Termination
import SpirvLink.Proofs.Link.Fixups
import SpirvLink.Proofs.Link.Joining
import SpirvLink.Proofs.Link.KernelCode
import SpirvLink.Proofs.Link.Namespacing
import SpirvLink.Proofs.Link.Reordering
import SpirvLink.Proofs.Link.Reparse
import SpirvLink.Proofs.Link.Stability
import SpirvLink.Proofs.Meaning.Copies
import SpirvLink.Proofs.Meaning.Passes
import SpirvLink.Proofs.Meaning.Preservation
import SpirvLink.Proofs.Module.Grammar
import SpirvLink.Proofs.Module.StorageClass
import SpirvLink.Proofs.Line.Substitution
import SpirvLink.Proofs.Fusion.Readings
import SpirvLink.Proofs.Fusion.SpecConstants
import SpirvLink.Proofs.Line.Definition
import SpirvLink.Proofs.Lowering.Exact
import SpirvLink.Proofs.Inlining.Chains
import SpirvLink.Proofs.Inlining.FreshNames
import SpirvLink.Proofs.Link.KernelList
import SpirvLink.Proofs.Link.Options
