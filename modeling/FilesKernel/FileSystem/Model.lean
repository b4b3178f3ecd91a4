import FilesKernel.Lib.Exec
import FilesKernel.Lib.Words

/-! The in-memory file system (`file_system.c`).

    A tree of `fs_node`s below `fs_root_ptr`, whose files keep their bytes in chains of 512-byte
    blocks taken from the free list at `fs_descriptors_head`. Each `DIR` owns its `children_`
    array, so a node is named by the child indices that lead to it from the root: the root is `[]`
    and `&children_[j]` of the node `p` is `p ++ [j]`. Block descriptors are named by the order in
    which `allocate_fs_blocks` obtained them. A C string is the list of its bytes before the
    terminating NUL. A call comes with the answers of `mem_alloc` to what it asks for; memory that is
    returned is fresh, and `init_file_system` is taken to get all that it asks for. The spinlock, which
    only disables preemption, is left out: each operation runs alone. -/

namespace FilesKernel.FileSystem
open CExec CWord

def fsBlockSize : ℕ := 512
def maxFilesInDir : ℕ := 256
def maxFileNameLength : ℕ := 128

/-- `/` -/
def slash : UInt8 := 47

abbrev CString := List UInt8

/-- The bytes of the memory that callers pass buffers in, by address. -/
abbrev Mem := ℕ → UInt8

inductive NodeType where | FILE | DIR
  deriving DecidableEq, Repr

/-- Where `mem_alloc` returns memory in the course of one call: for `levels`, for the `k`-th
    `current_level`, for the `children_` of a new directory, and for the `i`-th `next_node`. -/
structure MemAlloc where
  levels : Bool
  currentLevel : ℕ → Bool
  children : Bool
  nextNode : ℕ → Bool

/-- Memory every time. -/
def MemAlloc.always : MemAlloc := ⟨true, fun _ => true, true, fun _ => true⟩

abbrev BlockPtr := ℕ
abbrev NodePtr := List ℕ

/-- `fs_descriptor_list`, with the `FS_BLOCK_SIZE` bytes at `data_ptr_` in place of the pointer. -/
structure FsDescriptorList where
  next : Option BlockPtr
  prev : Option BlockPtr
  data : ℕ → UInt8

structure FsNode where
  type : NodeType
  name : CString
  children : Option NodePtr
  childrenNum : ℕ
  listHead : Option BlockPtr
  size : ℕ
  opened : Bool

structure FsState where
  fsDescriptorsHead : Option BlockPtr
  blocks : BlockPtr → FsDescriptorList
  nodes : NodePtr → FsNode

/-! ### Strings -/

/-- `strcopy` into a `name_` array: a name that does not fit with its NUL is stored out of bounds. -/
def strcopy (src : CString) : Exec CString :=
  if src.length + 1 ≤ maxFileNameLength then .ok src else .error .fault

/-- `streq(from, to)`. An exhausted `to` shows its NUL, which no byte of `from` equals. -/
def streq : CString → CString → Bool
  | [], _ => true
  | _ :: _, [] => false
  | c :: src, t :: dst => if t ≠ c then false else streq src dst

/-- `name_array`: the slots of `array_` that have been written, and `levels_num_`. -/
structure NameArray where
  array : List CString
  levelsNum : ℤ

/-- The string at `array_[i]`. There is none in a slot that has not been written. -/
def NameArray.get (levels : NameArray) (i : ℤ) : Option CString :=
  if 0 ≤ i then levels.array[i.toNat]? else none

/-- The slots of `levels`, for which `sizeof(char*) * levels_num` bytes are asked. -/
def slotsOf (memAlloc : MemAlloc) (levelsNum : ℤ) : ℕ :=
  if memAlloc.levels then u64 (8 * levelsNum) / 8 else 0

/-- The copy into `current_level`, and `levels[current_level_num] = current_level`. -/
def storeLevel (memAlloc : MemAlloc) (slots : ℕ) (levels : List CString) (level : CString) :
    Exec (List CString) :=
  if memAlloc.currentLevel levels.length ∧ levels.length < slots then .ok (levels ++ [level])
  else .error .fault

/-- The bytes `file_name[level_start .. level_end)`. -/
def levelAt (fileName : CString) (levelStart levelEnd : ℕ) : CString :=
  (fileName.drop levelStart).take (levelEnd - levelStart)

/-- The loop of `name_to_levels_array`, with `n` iterations left at index `i`. -/
def cutLevels (memAlloc : MemAlloc) (fileName : CString) (slots : ℕ) :
    ℕ → ℕ → ℕ → List CString → Exec (ℕ × ℕ × List CString)
  | 0, i, levelStart, levels => .ok (i, levelStart, levels)
  | n + 1, i, levelStart, levels =>
    if fileName[i]? = some slash then do
      bugOn (i = levelStart) "level_end == level_start"
      let levels ← storeLevel memAlloc slots levels (levelAt fileName levelStart i)
      cutLevels memAlloc fileName slots n (i + 1) (i + 1) levels
    else cutLevels memAlloc fileName slots n (i + 1) levelStart levels

/-- `name_to_levels_array`. Lengths and counts are `int`s, so that of a long string the loop sees the
    first `length` bytes only, or none. -/
def nameToLevelsArray (memAlloc : MemAlloc) (fileName : CString) : Exec NameArray := do
  let levelsNum := toInt (fileName.count slash)
  let length := toInt fileName.length
  let slots := slotsOf memAlloc levelsNum
  let (i, levelStart, levels) ← cutLevels memAlloc fileName slots (length - 1).toNat 1 1 []
  bugOn (i = levelStart) "level_end == level_start"
  let levels ← storeLevel memAlloc slots levels (levelAt fileName levelStart i)
  .ok ⟨levels, levelsNum⟩

/-! ### Nodes -/

def initFsNode (memAlloc : MemAlloc) (s : FsState) (p : NodePtr) (name : CString) (type : NodeType) :
    Exec FsState := do
  let name ← strcopy name
  let node : FsNode :=
    { type := type
      name := name
      children := if type = .DIR ∧ memAlloc.children then some p else none
      childrenNum := 0
      listHead := none
      size := 0
      opened := false }
  .ok { s with nodes := Function.update s.nodes p node }

/-- The search loop over `children_`: the first child whose name `streq` accepts. Without an array or
    without a string the first comparison is a fault. -/
def findChild (s : FsState) (dir : NodePtr) (level : Option CString) : Exec (Option NodePtr) :=
  match (s.nodes dir).children, level with
  | some a, some level => .ok (((List.range (s.nodes dir).childrenNum).find? fun j =>
      streq level (s.nodes (a ++ [j])).name).map fun j => a ++ [j])
  | _, _ => if (s.nodes dir).childrenNum = 0 then .ok none else .error .fault

/-- The loop of `find_node` over all levels but the last. -/
def descend (s : FsState) : NodePtr → List (Option CString) → Exec NodePtr
  | cur, [] => .ok cur
  | cur, level :: levels => do
    bugOn ((s.nodes cur).type ≠ .DIR) "current_node_ptr->type_ != DIR"
    match ← findChild s cur level with
    | some p => descend s p levels
    | none => .error (.bug "j == temp_max_j")

/-- The end of `find_node`: the next free slot of `children_` becomes the new node. -/
def addChild (memAlloc : MemAlloc) (s : FsState) (dir : NodePtr) (name : Option CString)
    (type : NodeType) : Exec (FsState × NodePtr) := do
  let d := s.nodes dir
  bugOn (d.childrenNum > 256) "current_node_ptr->children_num_ > 256"
  match d.children, name with
  | some a, some name =>
    if d.childrenNum < maxFilesInDir then do
      let s := { s with
        nodes := Function.update s.nodes dir { d with childrenNum := d.childrenNum + 1 } }
      let s ← initFsNode memAlloc s (a ++ [d.childrenNum]) name type
      .ok (s, a ++ [d.childrenNum])
    else .error .fault
  | _, _ => .error .fault

/-- The slots that the loop of `find_node` reads, and the last one. -/
def NameArray.above (levels : NameArray) : List (Option CString) :=
  (List.range (levels.levelsNum - 1).toNat).map fun i : ℕ => levels.get i

def NameArray.last (levels : NameArray) : Option CString := levels.get (levels.levelsNum - 1)

def findNode (memAlloc : MemAlloc) (s : FsState) (name : CString) (type : NodeType) :
    Exec (FsState × NodePtr) := do
  let levels ← nameToLevelsArray memAlloc name
  let cur ← descend s [] levels.above
  bugOn ((s.nodes cur).type ≠ .DIR) "current_node_ptr->type_ != DIR"
  match ← findChild s cur levels.last with
  | some p => .ok (s, p)
  | none => addChild memAlloc s cur levels.last type

def FsState.setOpened (s : FsState) (p : NodePtr) (b : Bool) : FsState :=
  { s with nodes := Function.update s.nodes p { s.nodes p with opened := b } }

/-- `open` -/
def openFile (memAlloc : MemAlloc) (s : FsState) (fileName : CString) : Exec (FsState × NodePtr) := do
  let (s, p) ← findNode memAlloc s fileName .FILE
  bugOn ((s.nodes p).opened = true) "node_ptr->opened_"
  .ok (s.setOpened p true, p)

/-- `close` -/
def closeFile (s : FsState) (p : NodePtr) : FsState := s.setOpened p false

def mkdir (memAlloc : MemAlloc) (s : FsState) (dirName : CString) : Exec FsState := do
  let (s, _) ← findNode memAlloc s dirName .DIR
  .ok s

/-- `readdir`: the nodes whose names the list built behind the sentinel `head_np` points to. Its head
    is read from `head_np.next_`, which no iteration has set when the directory is empty: `none`. -/
def readdir (memAlloc : MemAlloc) (s : FsState) (dirName : CString) :
    Exec (FsState × Option (List NodePtr)) := do
  let (s, p) ← findNode memAlloc s dirName .DIR
  match (s.nodes p).childrenNum with
  | 0 => .ok (s, none)
  | n + 1 =>
    match (s.nodes p).children with
    | none => .error .fault
    | some a =>
      if ∀ i < n + 1, memAlloc.nextNode i then
        .ok (s, some ((List.range (n + 1)).map fun j => a ++ [j]))
      else .error .fault

/-! ### Blocks -/

/-- `get_fs_block`; the block keeps its `next_`. -/
def getFsBlock (s : FsState) : Exec (FsState × BlockPtr) :=
  match s.fsDescriptorsHead with
  | none => .error (.bug "no filesystem free blocks left\n")
  | some res =>
    let head := (s.blocks res).next
    let s := { s with fsDescriptorsHead := head }
    match head with
    | none => .ok (s, res)
    | some h =>
      .ok ({ s with blocks := Function.update s.blocks h { s.blocks h with prev := none } }, res)

/-- `block->next_`, after a block has been appended where it was `NULL`. -/
def nextBlock (s : FsState) (block : BlockPtr) : Exec (FsState × BlockPtr) :=
  match (s.blocks block).next with
  | some next => .ok (s, next)
  | none => do
    let (s, next) ← getFsBlock s
    let s := { s with
      blocks := Function.update s.blocks block { s.blocks block with next := some next } }
    let s := { s with
      blocks := Function.update s.blocks next { s.blocks next with prev := some block } }
    .ok (s, next)

/-- The copy loop of `write_to_block`: `byte` runs through the caller's memory until one of the two
    end addresses stops it, `pos` through the bytes of the block. -/
def copyToBlock (mem : Mem) (dataEnd blockEnd : ℕ) :
    ℕ → ℕ → ℕ → (ℕ → UInt8) → Exec ((ℕ → UInt8) × ℕ)
  | 0, _, _, _ => .error .fuel
  | fuel + 1, byte, pos, data =>
    if byte < dataEnd ∧ byte < blockEnd then
      if pos < fsBlockSize then
        copyToBlock mem dataEnd blockEnd fuel (wrap (byte + 1)) (pos + 1)
          (Function.update data pos (mem byte))
      else .error .fault
    else .ok (data, byte)

def writeToBlock (mem : Mem) : ℕ → FsState → BlockPtr → ℕ → ℕ → ℕ → Exec FsState
  | 0, _, _, _, _, _ => .error .fuel
  | fuel + 1, s, block, offset, dataBegin, dataSize => do
    let s ← if offset > fsBlockSize then do
        let (s, next) ← nextBlock s block
        writeToBlock mem fuel s next (wsub offset fsBlockSize) dataBegin dataSize
      else .ok s
    let (data, byte) ← copyToBlock mem (wrap (dataBegin + dataSize))
      (wsub (dataBegin + fsBlockSize) offset) (fsBlockSize + 1) dataBegin offset (s.blocks block).data
    let s := { s with
      blocks := Function.update s.blocks block { s.blocks block with data := data } }
    if byte < wrap (dataBegin + dataSize) then do
      let (s, next) ← nextBlock s block
      writeToBlock mem fuel s next 0 byte (wsub dataSize fsBlockSize)
    else .ok s

/-- More calls than `write_to_block` or `read_from_block` nest for this offset and length. -/
def blockSteps (offset dataSize : ℕ) : ℕ := offset / fsBlockSize + dataSize / fsBlockSize + 3

/-- The size update of `write`, for a write that ends at `fileEnd`. -/
def FsNode.grow (n : FsNode) (fileEnd : ℕ) : FsNode :=
  if fileEnd > n.size then { n with size := fileEnd } else n

/-- `write` -/
def writeFile (s : FsState) (p : NodePtr) (offset : ℕ) (mem : Mem) (dataBegin dataSize : ℕ) :
    Exec FsState := do
  bugOn ((s.nodes p).opened = false) "!node_ptr->opened_"
  let n := (s.nodes p).grow (wrap (offset + dataSize))
  let s := { s with nodes := Function.update s.nodes p n }
  let (s, block) ← match n.listHead with
    | some block => .ok (s, block)
    | none => do
      let (s, block) ← getFsBlock s
      .ok ({ s with nodes := Function.update s.nodes p { n with listHead := some block } }, block)
  writeToBlock mem (blockSteps offset dataSize) s block offset dataBegin dataSize

/-- The copy loop of `read_from_block`; `bytesRead` counts in the caller's `res`. -/
def copyFromBlock (data : ℕ → UInt8) (dataEnd blockEnd fileEnd : ℕ) :
    ℕ → ℕ → ℕ → Mem → ℕ → Exec (Mem × ℕ × ℕ)
  | 0, _, _, _, _ => .error .fuel
  | fuel + 1, byte, pos, mem, bytesRead =>
    if byte < dataEnd ∧ byte < blockEnd ∧ byte < fileEnd then
      if pos < fsBlockSize then
        copyFromBlock data dataEnd blockEnd fileEnd fuel (wrap (byte + 1)) (pos + 1)
          (Function.update mem byte (data pos)) (wrap (bytesRead + 1))
      else .error .fault
    else .ok (mem, byte, bytesRead)

def readFromBlock (s : FsState) :
    ℕ → Option BlockPtr → ℕ → ℕ → ℕ → ℕ → Mem → ℕ → Exec (Mem × ℕ)
  | 0, _, _, _, _, _, _, _ => .error .fuel
  | _ + 1, none, _, _, _, _, mem, bytesRead => .ok (mem, bytesRead)
  | fuel + 1, some block, offset, dataBegin, dataSize, fileSizeLeft, mem, bytesRead =>
    if offset > fsBlockSize then
      readFromBlock s fuel (s.blocks block).next (wsub offset fsBlockSize) dataBegin dataSize
        (wsub fileSizeLeft fsBlockSize) mem bytesRead
    else do
      let (mem, byte, bytesRead) ← copyFromBlock (s.blocks block).data
        (wrap (dataBegin + dataSize)) (wsub (dataBegin + fsBlockSize) offset)
        (wrap (dataBegin + fileSizeLeft)) (fsBlockSize + 1) dataBegin offset mem bytesRead
      if byte < wrap (dataBegin + dataSize) then
        readFromBlock s fuel (s.blocks block).next 0 byte (wsub dataSize fsBlockSize)
          (wsub fileSizeLeft fsBlockSize) mem bytesRead
      else .ok (mem, bytesRead)

/-- `read`: the caller's memory afterwards and the number of bytes read. -/
def readFile (s : FsState) (p : NodePtr) (offset : ℕ) (mem : Mem) (dataBegin dataSize : ℕ) :
    Exec (Mem × ℕ) := do
  bugOn ((s.nodes p).opened = false) "!node_ptr->opened_"
  readFromBlock s (blockSteps offset dataSize) (s.nodes p).listHead offset dataBegin dataSize
    (s.nodes p).size mem 0

/-! ### Set-up -/

/-- The loop of `allocate_fs_blocks`: `garbage` is what the fresh blocks contain. -/
def allocateFsBlocks (garbage : BlockPtr → ℕ → UInt8) : ℕ → FsState → FsState
  | 0, s => { s with fsDescriptorsHead := none }
  | i + 1, s =>
    let s := allocateFsBlocks garbage i s
    let s := match s.fsDescriptorsHead with
      | none => s
      | some h => { s with blocks := Function.update s.blocks h { s.blocks h with prev := some i } }
    { s with
      blocks := Function.update s.blocks i ⟨s.fsDescriptorsHead, none, garbage i⟩
      fsDescriptorsHead := some i }

/-- Memory before `init_file_system`: nothing is linked, no node is set up. -/
def blankState (garbage : BlockPtr → ℕ → UInt8) : FsState where
  fsDescriptorsHead := none
  blocks := fun b => ⟨none, none, garbage b⟩
  nodes := fun _ => ⟨.FILE, [], none, 0, none, 0, false⟩

def initFileSystem (garbage : BlockPtr → ℕ → UInt8) (blocksNum : ℕ) : Exec FsState :=
  initFsNode .always (allocateFsBlocks garbage blocksNum (blankState garbage)) [] [slash] .DIR

/-! ### Runs of a client -/

/-- The calls of the interface, with what `mem_alloc` answers. A file is named by its place among the
    results of `open` so far: a client has no other `fs_node_t *`. -/
inductive FsOp where
  | open (memAlloc : MemAlloc) (fileName : CString)
  | close (file : ℕ)
  | mkdir (memAlloc : MemAlloc) (dirName : CString)
  | readdir (memAlloc : MemAlloc) (dirName : CString)
  | read (file : ℕ) (offset : ℕ) (mem : Mem) (dataBegin dataSize : ℕ)
  | write (file : ℕ) (offset : ℕ) (mem : Mem) (dataBegin dataSize : ℕ)

/-- The file system and the nodes that `open` has returned to the client. -/
structure Client where
  fs : FsState
  files : List NodePtr

def Client.file (c : Client) (i : ℕ) : Exec NodePtr :=
  match c.files[i]? with
  | some p => .ok p
  | none => .error .fault

def Client.step (c : Client) : FsOp → Exec Client
  | .open memAlloc fileName => do
    let (s, p) ← openFile memAlloc c.fs fileName
    .ok ⟨s, c.files ++ [p]⟩
  | .close i => do
    let p ← c.file i
    .ok { c with fs := closeFile c.fs p }
  | .mkdir memAlloc dirName => do
    let s ← FileSystem.mkdir memAlloc c.fs dirName
    .ok { c with fs := s }
  | .readdir memAlloc dirName => do
    let (s, _) ← FileSystem.readdir memAlloc c.fs dirName
    .ok { c with fs := s }
  | .read i offset mem dataBegin dataSize => do
    let p ← c.file i
    let _ ← readFile c.fs p offset mem dataBegin dataSize
    .ok c
  | .write i offset mem dataBegin dataSize => do
    let p ← c.file i
    let s ← writeFile c.fs p offset mem dataBegin dataSize
    .ok { c with fs := s }

/-- A client's run after `init_file_system(blocks_num)`. -/
def runClient (garbage : BlockPtr → ℕ → UInt8) (blocksNum : ℕ) (ops : List FsOp) : Exec Client := do
  let s ← initFileSystem garbage blocksNum
  runOps Client.step ⟨s, []⟩ ops

end FilesKernel.FileSystem
