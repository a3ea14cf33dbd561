import CocaHeap.Tree
import CocaHeap.Usize
import CocaHeap.Slice
import CocaHeap.Heapify
import CocaHeap.SiftUp
import CocaHeap.BuildHeap
import CocaHeap.SortLoop
import CocaHeap.Vec
import CocaHeap.BinaryHeap
import CocaHeap.Operations
import CocaHeap.Checked
import CocaHeap.Sorted
import CocaHeap.Machine
import CocaHeap.Refinement
import CocaHeap.Run
import CocaHeap.Observe
import CocaHeap.Cost
