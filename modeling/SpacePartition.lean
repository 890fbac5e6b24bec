import SpacePartition.Decimal.Message
import SpacePartition.Region.Cached
import SpacePartition.Node.Lemmas
import SpacePartition.Scalar.Binary64
import SpacePartition.Solid.Polyhedron
import SpacePartition.Proofs.Region.Duality
import SpacePartition.Proofs.Scalar.Exact
import SpacePartition.Proofs.Region.Fitted
import SpacePartition.Proofs.Line.Crowded
import SpacePartition.Proofs.Affine.Algebra
import SpacePartition.Proofs.Plane.Figures
import SpacePartition.Proofs.Line.Parts
import SpacePartition.Proofs.Arena.Refinement
import SpacePartition.Proofs.Region.Cached
import SpacePartition.Proofs.Line.Convex
import SpacePartition.Proofs.Line.Measure
import SpacePartition.Proofs.Solid.Extremes
import SpacePartition.Proofs.Arena.Simplify
import SpacePartition.Proofs.Region.Reach
import SpacePartition.Proofs.Region.Quiet
import SpacePartition.Proofs.Region.Itself
import SpacePartition.Proofs.Line.Settled
import SpacePartition.Proofs.Arena.Extract
import SpacePartition.Proofs.Arena.Cuts
import SpacePartition.Proofs.Arena.Calls
import SpacePartition.Proofs.Line.Split
import SpacePartition.Proofs.Line.Fitting
import SpacePartition.Proofs.Line.Boundary
import SpacePartition.Proofs.Line.Inclusion
import SpacePartition.Proofs.Line.Clipping
import SpacePartition.Proofs.Line.Segment
import SpacePartition.Proofs.Plane.Edges
import SpacePartition.Proofs.Plane.Queries
import SpacePartition.Proofs.Region.Facing
import SpacePartition.Proofs.Plane.Halves
import SpacePartition.Proofs.Solid.Trace
import SpacePartition.Proofs.Region.Emptiness
import SpacePartition.Proofs.Region.Minimal
import SpacePartition.Proofs.Region.Reunion
import SpacePartition.Proofs.Plane.Outline
import SpacePartition.Proofs.Solid.Distance
import SpacePartition.Proofs.Solid.Polyhedron
import SpacePartition.Proofs.Arena.Leaves
import SpacePartition.Proofs.Arena.Isolate
import SpacePartition.Proofs.Solid.Answers
