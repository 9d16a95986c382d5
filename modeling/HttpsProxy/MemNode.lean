import HttpsProxy.MemVector

/-! `IMEMNODE` of `imembase.c`: a pool of nodes of one size, known by their
numbers. The links of a free and of a used list run through arrays that lie in
vectors; the pool keeps the addresses of these arrays beside the vectors. A call
that fails an `assert` or touches memory it does not own has no result. -/
namespace HttpsProxy

/-- `IMROUNDSIZE`. -/
def roundSize : ℕ := 8

/-- `IMROUNDUP(s)`: clearing the low bits of `s + 7`. -/
def roundUp (s : ℕ) : ℕ := (s + roundSize - 1) / roundSize * roundSize

theorem le_roundUp (s : ℕ) : s ≤ roundUp s := by
  simp only [roundUp, roundSize]
  omega

theorem roundUp_lt (s : ℕ) : roundUp s < s + roundSize := by
  simp only [roundUp, roundSize]
  omega

theorem roundUp_dvd (s : ℕ) : roundSize ∣ roundUp s := Dvd.intro_left _ rfl

/-- A vector of integers or pointers. -/
abbrev CellVector := IVector 8 ℤ

namespace CellVector

/-- Where the cells are. -/
def addr (v : CellVector) : Option ℕ := v.data.map MemBlock.addr

/-- Cell `i` of the vector itself. -/
def cell (v : CellVector) (i : ℤ) : ℤ :=
  match v.data with
  | none => 0
  | some b => b.cells.getD i.toNat 0

def put (v : CellVector) (i x : ℤ) : CellVector :=
  match v.data with
  | none => v
  | some b => { v with data := some { b with cells := b.cells.set i.toNat x } }

/-- `array[i]`, where `array` is to be the address of the cells. -/
def load (v : CellVector) (array : Option ℕ) (i : ℤ) : Option ℤ :=
  match v.data with
  | none => none
  | some b =>
    if array = some b.addr ∧ 0 ≤ i ∧ i < b.cells.length then some (v.cell i) else none

/-- `array[i] = x`. -/
def store (v : CellVector) (array : Option ℕ) (i x : ℤ) : Option CellVector :=
  match v.data with
  | none => none
  | some b =>
    if array = some b.addr ∧ 0 ≤ i ∧ i < b.cells.length then some (v.put i x) else none

end CellVector

/-- The arrays of a pool: the links, the information and the memory of each
node, and whether it is in use. -/
inductive NodeField where
  | prev | next | node | data | mode
  deriving DecidableEq, Repr

/-- The vectors `vprev`, .., `vmode` and the pointers `mprev`, .., `mmode` to
what should be their cells. -/
structure NodeArrays where
  vec : NodeField → CellVector
  ptr : NodeField → Option ℕ

/-- The answers to the requests for the arrays. -/
abbrev ArrayMemory := NodeField → Allocator 8 ℤ

namespace NodeArrays

def init : NodeArrays := { vec := fun _ => IVector.init, ptr := fun _ => none }

/-- Entry `i` of an array, as the vector has it. -/
def entry (a : NodeArrays) (k : NodeField) (i : ℤ) : ℤ := (a.vec k).cell i

/-- `IMNODE_PREV(mn, i)`, `IMNODE_NEXT(mn, i)` and so on. -/
def get (a : NodeArrays) (k : NodeField) (i : ℤ) : Option ℤ := (a.vec k).load (a.ptr k) i

/-- The assignment to `IMNODE_PREV(mn, i)` and so on. -/
def set (a : NodeArrays) (k : NodeField) (i x : ℤ) : Option NodeArrays :=
  ((a.vec k).store (a.ptr k) i x).map fun v =>
    { a with vec := fun k' => if k' = k then v else a.vec k' }

/-- `if (i >= 0) IMNODE_PREV(mn, i) = x;` -/
def setPrevIf (a : NodeArrays) (i x : ℤ) : Option NodeArrays :=
  if 0 ≤ i then a.set .prev i x else some a

/-- The calls of `iv_resize` in `imnode_node_resize`, with what it returns where
one fails. -/
def resizeAll (A : ArrayMemory) (size : ℕ) : List (NodeField × ℤ) → NodeArrays → NodeArrays × ℤ
  | [], a => (a, 0)
  | (k, code) :: ks, a =>
    let r := (a.vec k).resize (A k) size
    let a := { a with vec := fun k' => if k' = k then r.1 else a.vec k' }
    if r.2 ≠ 0 then (a, code) else resizeAll A size ks a

/-- The order of the calls. -/
def resizeOrder : List (NodeField × ℤ) :=
  [(.prev, -1), (.next, -2), (.node, -3), (.data, -5), (.mode, -6)]

/-- `imnode_node_resize`. The pointers to the arrays are only renewed when all
five vectors have been resized. -/
def nodeResize (A : ArrayMemory) (a : NodeArrays) (size : ℤ) : NodeArrays × ℤ :=
  let r := resizeAll A (size * 8).toNat resizeOrder a
  if r.2 ≠ 0 then r else ({ r.1 with ptr := fun k => (r.1.vec k).addr }, 0)

end NodeArrays

structure IMemNode where
  arrays : NodeArrays
  nodeFree : ℤ
  nodeUsed : ℤ
  nodeMax : ℤ
  growLimit : ℤ
  nodeSize : ℤ
  vmem : CellVector
  mmem : Option ℕ
  memMax : ℤ
  memCount : ℤ
  listOpen : ℤ
  listClose : ℤ
  totalMem : ℤ

/-- The answers to the requests of one `imnode_grow`: for the arrays, for the
list of chunks, for the chunk, and for smaller arrays if there is no chunk. -/
structure GrowMemory where
  arrays : ArrayMemory
  chunks : Allocator 8 ℤ
  chunk : ℕ → Option ℕ
  back : ArrayMemory

namespace IMemNode

/-- `imnode_init` for a node size that is not negative (the loop for `node_shift`
does not end on others); the limit is set by the caller afterwards. -/
def init (nodesize growLimit : ℤ) : IMemNode :=
  { arrays := NodeArrays.init,
    nodeSize := roundUp (if nodesize < (roundSize : ℤ) then (roundSize : ℤ) else nodesize).toNat,
    nodeFree := 0, nodeUsed := 0, nodeMax := 0, growLimit,
    vmem := IVector.init, mmem := none, memMax := 0, memCount := 0,
    listOpen := -1, listClose := -1, totalMem := 0 }

/-- `imnode_mem_add`: a chunk for `nodeCount` nodes, and where its nodes start.
The length of the nodes is a product of two `ilong`, undefined from 2^63 on. -/
def memAdd (A : Allocator 8 ℤ) (chunk : ℕ → Option ℕ) (mn : IMemNode) (nodeCount : ℤ) :
    Option (IMemNode × ℤ × ℕ) :=
  let full := mn.memMax ≤ mn.memCount
  let newsize := if mn.memMax ≤ 0 then (roundSize : ℤ) else mn.memMax * 2
  let r := mn.vmem.resize A (newsize * 8).toNat
  if full ∧ r.2 ≠ 0 then some ({ mn with vmem := r.1 }, -1, 0)
  else
    let mn :=
      if full then { mn with vmem := r.1, memMax := newsize, mmem := CellVector.addr r.1 } else mn
    if 2^63 ≤ nodeCount * mn.nodeSize then none
    else
      let newsize := nodeCount * mn.nodeSize + roundSize
      match chunk newsize.toNat with
      | none => some (mn, -2, 0)
      | some mptr => (mn.vmem.store mn.mmem mn.memCount mptr).map fun v =>
          ({ mn with vmem := v, memCount := mn.memCount + 1, totalMem := mn.totalMem + newsize },
            0, roundUp mptr)

/-- The loop of `imnode_grow`: `j` nodes from `i` down are put into the open
list, with the memory from `p` on. -/
def growLoop : ℕ → IMemNode → ℤ → ℤ → Option IMemNode
  | 0, mn, _, _ => some mn
  | j+1, mn, i, p => do
    let a ← mn.arrays.set .node i 0
    let a ← a.set .mode i 0
    let a ← a.set .data i p
    let a ← a.set .prev i (-1)
    let a ← a.set .next i mn.listOpen
    let a ← a.setPrevIf mn.listOpen i
    growLoop j { mn with arrays := a, listOpen := i, nodeFree := mn.nodeFree + 1 } (i - 1)
      (p + mn.nodeSize)

/-- The number of nodes `imnode_grow` adds. -/
def growCount (mn : IMemNode) : ℤ :=
  let count := if mn.nodeMax ≤ 0 then (roundSize : ℤ) else mn.nodeMax
  if 0 < mn.growLimit ∧ mn.growLimit < count then mn.growLimit else count

/-- `imnode_grow`. -/
def grow (M : GrowMemory) (mn : IMemNode) : Option (IMemNode × ℤ) :=
  let sizeStart := mn.nodeMax
  let count := mn.growCount
  let r := mn.arrays.nodeResize M.arrays (sizeStart + count)
  if r.2 ≠ 0 then some ({ mn with arrays := r.1 }, -10 + r.2)
  else
    (memAdd M.chunks M.chunk { mn with arrays := r.1, nodeMax := sizeStart + count } count).bind
      fun m =>
        if m.2.1 ≠ 0 then
          some ({ m.1 with arrays := (m.1.arrays.nodeResize M.back sizeStart).1, nodeMax := sizeStart },
            -20 + m.2.1)
        else (growLoop count.toNat m.1 (m.1.nodeMax - 1) m.2.2).map fun mn => (mn, 0)

/-- The part of `imnode_new` behind the growing: a node goes from the open list
to the closed one. -/
def take (mn : IMemNode) : Option (IMemNode × ℤ) :=
  if mn.listOpen < 0 ∨ mn.nodeFree ≤ 0 then some (mn, -3)
  else do
    let node := mn.listOpen
    let next ← mn.arrays.get .next node
    let a ← mn.arrays.setPrevIf next (-1)
    let a ← a.set .prev node (-1)
    let a ← a.set .next node mn.listClose
    let a ← a.setPrevIf mn.listClose node
    let a ← a.set .mode node 1
    some ({ mn with arrays := a, listOpen := next, listClose := node,
                    nodeFree := mn.nodeFree - 1, nodeUsed := mn.nodeUsed + 1 }, node)

/-- `imnode_new`. -/
def new (M : GrowMemory) (mn : IMemNode) : Option (IMemNode × ℤ) :=
  if mn.listOpen < 0 then
    (mn.grow M).bind fun r => if r.2 ≠ 0 then some (r.1, -2) else r.1.take
  else mn.take

/-- `imnode_del`. The node is taken out of the closed list and goes to the front
of the open one. -/
def del (mn : IMemNode) (index : ℤ) : Option IMemNode :=
  if ¬ (0 ≤ index ∧ index < mn.nodeMax) then none
  else do
    let mode ← mn.arrays.get .mode index
    if mode = 0 then none else
    let next ← mn.arrays.get .next index
    let prev ← mn.arrays.get .prev index
    let a ← mn.arrays.setPrevIf next prev
    let a ← (if 0 ≤ prev then a.set .next prev next else some a)
    let listClose := if 0 ≤ prev then mn.listClose else next
    let a ← a.set .prev index (-1)
    let a ← a.set .next index mn.listOpen
    let a ← a.setPrevIf mn.listOpen index
    let a ← a.set .mode index 0
    some { mn with arrays := a, listOpen := index, listClose,
                   nodeFree := mn.nodeFree + 1, nodeUsed := mn.nodeUsed - 1 }

/-- `imnode_head`, `imnode_next` and `imnode_prev`: walking over the nodes in use. -/
def head (mn : IMemNode) : ℤ := mn.listClose
def next (mn : IMemNode) (index : ℤ) : Option ℤ := mn.arrays.get .next index
def prev (mn : IMemNode) (index : ℤ) : Option ℤ := mn.arrays.get .prev index

/-- `imnode_data`. -/
def data (mn : IMemNode) (index : ℤ) : Option ℤ := mn.arrays.get .data index

/-- `imnode_destroy`, with the addresses it frees. -/
def destroy (mn : IMemNode) : Option (IMemNode × List ℕ) := do
  let chunks ← (List.range mn.memCount.toNat).mapM fun (i : ℕ) => mn.vmem.load mn.mmem i
  let freed := chunks.map Int.toNat ++ (if 0 < mn.memCount then mn.vmem.addr.toList else []) ++
    NodeArrays.resizeOrder.flatMap fun k => (mn.arrays.vec k.1).addr.toList
  let mn := if 0 < mn.memCount then
    { mn with vmem := IVector.init, mmem := none, memCount := 0, memMax := 0 } else mn
  some ({ mn with arrays := NodeArrays.init, nodeFree := 0, nodeUsed := 0, nodeMax := 0,
                  listOpen := -1, listClose := -1, totalMem := 0 }, freed)

end IMemNode

end HttpsProxy
