import EventAtlas.Main
import EventAtlas.Typing.Codec
import EventAtlas.Proofs.Typing.Algebra
import EventAtlas.Proofs.Inference.Cycles
import EventAtlas.Proofs.Inference.OrderIndependence
import EventAtlas.Proofs.Hierarchy.Orders
import EventAtlas.Proofs.Inference.Evaluation
import EventAtlas.Proofs.Inference.DepthLimit
import EventAtlas.Proofs.Forest.Joining
import EventAtlas.Proofs.Index.Restored
import EventAtlas.Proofs.Facts.Events
import EventAtlas.Proofs.Index.Sources
import EventAtlas.Proofs.Doc.TagLines
import EventAtlas.Proofs.Forest.Statements
import EventAtlas.Proofs.Inference.SweepReads
import EventAtlas.Proofs.Inference.ErrorReports
import EventAtlas.Proofs.Inference.Shadowing
import EventAtlas.Proofs.Inference.Settling
import EventAtlas.Proofs.Query.FirstMatch
import EventAtlas.Proofs.Query.Receivers
import EventAtlas.Proofs.Facts.Reports
import EventAtlas.Proofs.Facts.Collectors
import EventAtlas.Proofs.Link.Refusals
import EventAtlas.Proofs.Forest.ImportComments
import EventAtlas.Proofs.Forest.Parameters
import EventAtlas.Proofs.Forest.Traversal
