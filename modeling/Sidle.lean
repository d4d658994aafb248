import Sidle.Prog.Basic
import Sidle.Prog.Run
import Sidle.Word.Field
import Sidle.Policy
import Sidle.Trie.Basic
import Sidle.Trie.Update
import Sidle.Trie.Walk
import Sidle.Art.Version
import Sidle.Art.Memory
import Sidle.Art.Node
import Sidle.Art.Tree
import Sidle.Art.Fuel
import Sidle.Art.Exec
import Sidle.Art.Layout
import Sidle.Art.NodeSpec
import Sidle.Art.GrowSpec
import Sidle.Art.SplitSpec
import Sidle.Art.Represents
import Sidle.Art.Lookup
import Sidle.Art.Update
import Sidle.Art.Link
import Sidle.Art.Depth
import Sidle.Art.Continues
import Sidle.Art.Insert
import Sidle.Art.Sequence
import Sidle.Art.Release
import Sidle.Art.Migration
import Sidle.Art.Traverse
import Sidle.Art.LeafMigration
import Sidle.Art.Alike
import Sidle.Art.CopySpec
import Sidle.Art.NodeMigration
import Sidle.Art.Transparency
import Sidle.Prog.Trace
import Sidle.Prog.Links
import Sidle.Threshold
import Sidle.Masstree.NodeVersion
import Sidle.Masstree.LeafLink
import Sidle.Worker.Histogram
import Sidle.Worker.Cooling
import Sidle.Worker.Hotness
import Sidle.Worker.System
import Sidle.Worker.Tasks
import Sidle.Worker.Switches
import Sidle.Worker.Rounds
import Sidle.Worker.Cleanup
import Sidle.Prog.Safe
import Sidle.Worker.Executor
import Sidle.Worker.Demotion
import Sidle.Worker.Locks
import Sidle.Worker.DemotionLocks
import Sidle.Worker.DemotionGuard
import Sidle.Masstree.Key
import Sidle.Prog.Ensures
import Sidle.Prog.Returns
import Sidle.Prog.View
import Sidle.Forest.Basic
import Sidle.Masstree.Struct
import Sidle.Masstree.Memory
import Sidle.Masstree.Split
import Sidle.Masstree.Insert
import Sidle.Masstree.Remove
import Sidle.Masstree.Migration
import Sidle.Masstree.Frame
import Sidle.Masstree.LeafCopy
import Sidle.Masstree.Runs
import Sidle.Masstree.Dereference
import Sidle.Masstree.AbsentChild
import Sidle.Masstree.Shape
import Sidle.Masstree.Reach
import Sidle.Masstree.Relocate
import Sidle.Masstree.InternodeCopy
import Sidle.Masstree.Layout
import Sidle.Prog.Rely
import Sidle.Art.Visit
import Sidle.Art.Wiring
import Sidle.Art.ReleasePut
import Sidle.Art.Ladder
import Sidle.Masstree.Failure
import Sidle.Worker.Pipeline
import Sidle.Worker.Encoding
import Sidle.Masstree.Held
import Sidle.Masstree.Balance
import Sidle.Masstree.Outline
import Sidle.Masstree.Upkeep
import Sidle.Masstree.InsertSound
import Sidle.Masstree.NullParent
import Sidle.Worker.Balance
import Sidle.Art.Count
import Sidle.Art.Restart
import Sidle.Cxl.Mmap
import Sidle.Masstree.Permuter
import Sidle.Masstree.Stores
import Sidle.Masstree.Order
import Sidle.Masstree.Snapshot
import Sidle.Rcu.Limbo
import Sidle.Rcu.Epoch
import Sidle.Masstree.BagLayout
import Sidle.Forest.Cover
import Sidle.Masstree.Fill
import Sidle.Masstree.LeafStores
import Sidle.Masstree.Find
import Sidle.Masstree.Hang
import Sidle.Masstree.Hoist
import Sidle.Masstree.PageStores
import Sidle.Masstree.Halve
import Sidle.Masstree.Rise
import Sidle.Masstree.LeafSplit
import Sidle.Masstree.LeafHalves
import Sidle.Masstree.Contents
import Sidle.Masstree.MakeRoom
import Sidle.Masstree.Twig
import Sidle.Masstree.NewLayer
import Sidle.Masstree.Locate
import Sidle.Masstree.Put
import Sidle.Masstree.Table
