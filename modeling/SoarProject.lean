import SoarProject.Archive.Restore
import SoarProject.CommandLine.Run
import SoarProject.Datamap.Generation
import SoarProject.Event.Emitter
import SoarProject.Main
import SoarProject.Progress
import SoarProject.Project.Rules
import SoarProject.Project.Search
import SoarProject.Rule.Framing
import SoarProject.Rule.Handover
import SoarProject.Rule.Outline
import SoarProject.Rule.Source
import SoarProject.Schema.Project
import SoarProject.Session.Opening
import SoarProject.Settings
import SoarProject.Statement.Prepared
import SoarProject.Text.Case
import SoarProject.Proofs.Archive.RoundTrip
import SoarProject.Proofs.Datamap.Chain
import SoarProject.Proofs.Datamap.Selection
import SoarProject.Proofs.Datamap.Comparison
import SoarProject.Proofs.Datamap.Coverage
import SoarProject.Proofs.Datamap.Acyclic
import SoarProject.Proofs.Datamap.Correction
import SoarProject.Proofs.Datamap.Extraction
import SoarProject.Proofs.Datamap.Enumeration
import SoarProject.Proofs.Datamap.FixedPoint
import SoarProject.Proofs.Datamap.Gathering
import SoarProject.Proofs.Datamap.Generation
import SoarProject.Proofs.Datamap.Refinement
import SoarProject.Proofs.Project.Repetition
import SoarProject.Proofs.Project.Saving
import SoarProject.Proofs.Project.Searching
import SoarProject.Proofs.Project.Completeness
import SoarProject.Proofs.Project.Commutation
import SoarProject.Proofs.Project.Storability
import SoarProject.Proofs.Row.Spawning
import SoarProject.Proofs.Row.Reachability
import SoarProject.Proofs.Rule.Braces
import SoarProject.Proofs.Rule.Canonical
import SoarProject.Proofs.Rule.Splitting
import SoarProject.Proofs.Project.Upward
import SoarProject.Proofs.Rule.Intermediate
import SoarProject.Proofs.Rule.Naming
import SoarProject.Proofs.Project.Kinds
import SoarProject.Proofs.Project.TextSearch
import SoarProject.Proofs.Project.Renaming
import SoarProject.Proofs.Project.Importing
import SoarProject.Proofs.Schema.Declaration
import SoarProject.Proofs.Datamap.Proposal
import SoarProject.Proofs.Statement.Concatenation
