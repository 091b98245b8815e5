import Disasm86.ByteMap.Items
import Disasm86.CommandLine
import Disasm86.Main
import Disasm86.Proofs.Marking
import Disasm86.Proofs.Span
import Disasm86.Proofs.Reading
import Disasm86.Proofs.Window
import Disasm86.Proofs.Partition
import Disasm86.Proofs.Run
import Disasm86.Proofs.Stretch
import Disasm86.Proofs.Explored
import Disasm86.Proofs.Indexed
import Disasm86.Proofs.Layout
import Disasm86.Proofs.Visit
import Disasm86.Proofs.Tiling
import Disasm86.Proofs.Settled
import Disasm86.Proofs.Workload
import Disasm86.Proofs.StaticFlow
import Disasm86.Proofs.Accounting
import Disasm86.Proofs.Resync
import Disasm86.Proofs.Extent
import Disasm86.Proofs.Truncation
import Disasm86.Proofs.History
import Disasm86.Proofs.Draining
import Disasm86.Proofs.FlowEdges
import Disasm86.Proofs.Labels
import Disasm86.Proofs.Ownership
import Disasm86.Proofs.Ranges
import Disasm86.Proofs.Contents
import Disasm86.Proofs.Shape
import Disasm86.Proofs.Findings
import Disasm86.Proofs.Resolution
import Disasm86.Proofs.Position
import Disasm86.Proofs.PrefixRun
import Disasm86.Proofs.Refusals
import Disasm86.Proofs.Replay
import Disasm86.Proofs.Confinement
import Disasm86.Proofs.Separation
import Disasm86.Proofs.Lanes
import Disasm86.Proofs.Tables
import Disasm86.Proofs.JumpTables
import Disasm86.Proofs.Arrivals
import Disasm86.Proofs.Interruption
import Disasm86.Proofs.Precedence
import Disasm86.Proofs.Listings
import Disasm86.Proofs.Agreement
import Disasm86.Proofs.BranchForms
import Disasm86.Proofs.Branches
import Disasm86.Proofs.Breakage
import Disasm86.Proofs.Detection
import Disasm86.Proofs.Callers
import Disasm86.Proofs.Fields
import Disasm86.Proofs.FallThroughs
import Disasm86.Proofs.Updates
import Disasm86.Proofs.Coverage
import Disasm86.Proofs.SlotTargets
import Disasm86.Proofs.TableForms
import Disasm86.Proofs.FlatLayout
import Disasm86.Proofs.HexText
import Disasm86.Proofs.LabelNames
import Disasm86.Proofs.Recorded
import Disasm86.Proofs.Distances
import Disasm86.Proofs.TypedAddresses
