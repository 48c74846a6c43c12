import AssemblyVersions.Main
import AssemblyVersions.Proofs.DiskContents
import AssemblyVersions.Proofs.Erased
import AssemblyVersions.Proofs.Refusal
import AssemblyVersions.Proofs.FileOrder
import AssemblyVersions.Proofs.Idempotence
import AssemblyVersions.Proofs.Sequence
import AssemblyVersions.Proofs.RoundTrip
import AssemblyVersions.Proofs.EditsInTurn
import AssemblyVersions.Proofs.ValueOctets
import AssemblyVersions.Proofs.SetsInTurn
import AssemblyVersions.Proofs.LineOrder
import AssemblyVersions.Proofs.ChangeLog
import AssemblyVersions.Proofs.DeclarationPattern
import AssemblyVersions.Proofs.NumberPattern
import AssemblyVersions.Proofs.WholeNumber
import AssemblyVersions.Proofs.Successor
import AssemblyVersions.Proofs.Consumption
import AssemblyVersions.Proofs.Options
import AssemblyVersions.Proofs.FoundFiles
