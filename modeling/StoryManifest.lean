import StoryManifest.Main
import StoryManifest.Proofs.Extraction
import StoryManifest.Proofs.Locating
import StoryManifest.Proofs.Manifest.RoundTrip
import StoryManifest.Proofs.Watch.Agreement
import StoryManifest.Proofs.Watch.Irrelevance
import StoryManifest.Proofs.Watch.Run
import StoryManifest.Proofs.Literal.Static
import StoryManifest.Proofs.Isolation
import StoryManifest.Proofs.Rearranging
import StoryManifest.Proofs.Command.Acceptance
import StoryManifest.Proofs.Manifest.Comparison
import StoryManifest.Proofs.Comments
import StoryManifest.Proofs.Wrapping
import StoryManifest.Proofs.Assigning
import StoryManifest.Proofs.Exporting
import StoryManifest.Proofs.Repeating
import StoryManifest.Proofs.Literal.Integers
import StoryManifest.Proofs.Literal.Braces
import StoryManifest.Proofs.Respelling
import StoryManifest.Proofs.Exchanging
import StoryManifest.Proofs.Describing
import StoryManifest.Proofs.Omissions
import StoryManifest.Proofs.Watch.Coalescing
import StoryManifest.Proofs.Watch.Directories
import StoryManifest.Proofs.Component.Overlap
import StoryManifest.Proofs.Component.Reference
import StoryManifest.Proofs.Discovery.Narrowing
import StoryManifest.Proofs.Command.Generation
import StoryManifest.Proofs.Source.FirstFault
