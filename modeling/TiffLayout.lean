import TiffLayout.Width
import TiffLayout.ByteOrder
import TiffLayout.Hex
import TiffLayout.Kind
import TiffLayout.Tag
import TiffLayout.FieldType
import TiffLayout.Extent
import TiffLayout.Segment.Basic
import TiffLayout.Segment.Read
import TiffLayout.Segment.Dump
import TiffLayout.Error
import TiffLayout.Buffer
import TiffLayout.Draft.Field
import TiffLayout.Draft.Directory
import TiffLayout.Draft.Basic
import TiffLayout.Draft.OfSegment
import TiffLayout.Draft.Normal
import TiffLayout.Plan.Basic
import TiffLayout.Plan.Build
import TiffLayout.Plan.Emit
import TiffLayout.Write.Compact
import TiffLayout.Write.Gaps
import TiffLayout.Write.Reuse
import TiffLayout.Rebuild
import TiffLayout.Session
import TiffLayout.Main
import TiffLayout.Proofs.Except
import TiffLayout.Proofs.Runs
import TiffLayout.Proofs.Occupied
import TiffLayout.Proofs.Items
import TiffLayout.Proofs.Placement
import TiffLayout.Proofs.Emission
import TiffLayout.Proofs.GapLayout
import TiffLayout.Proofs.Bytes
import TiffLayout.Proofs.PlanParts
import TiffLayout.Proofs.Synthesis
import TiffLayout.Proofs.TableRead
import TiffLayout.Proofs.Walk
import TiffLayout.Proofs.Patch
import TiffLayout.Proofs.Image
import TiffLayout.Proofs.Filled
import TiffLayout.Proofs.DirectoryRead
import TiffLayout.Proofs.ReadBack
import TiffLayout.Proofs.Writing
import TiffLayout.Proofs.Compact
import TiffLayout.Proofs.Analysis
import TiffLayout.Proofs.GapImage
import TiffLayout.Proofs.Similar
import TiffLayout.Proofs.Frame
import TiffLayout.Proofs.Failures
import TiffLayout.Proofs.Contents
import TiffLayout.Proofs.Rebuilt
import TiffLayout.Proofs.Fallback
import TiffLayout.Proofs.Acceptance
import TiffLayout.Proofs.DirectoryBytes
import TiffLayout.Proofs.Traversal
import TiffLayout.Proofs.Editing
import TiffLayout.Proofs.Serialized
import TiffLayout.Proofs.Packing
import TiffLayout.Proofs.BestFit
import TiffLayout.Proofs.Grouping
import TiffLayout.Proofs.Planning
import TiffLayout.Proofs.Footprint
import TiffLayout.Proofs.Frozen
import TiffLayout.Proofs.RoundTrip
