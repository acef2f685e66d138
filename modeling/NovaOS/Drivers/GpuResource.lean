import NovaOS.Mem.Vma

/-!
# GPU resources

Reference: `drivers/virtiogpu/resources.c`, `drivers/virtiogpu/virtioGpu.h`, `kernel/nag/nag.h`.

`virtioGpuResourceCreate` and `virtioGpuResourceDestroy` on a machine with several processes. A process
is named by its index; all of them run in the memory `vmm`. What the device makes of a command is given
by `answers`: a `false` at the head fails the next command. `kzallocDenials` does the same for the
records. The contents of the resources are not part of the state; `commands` has every command that may
change them.
-/

namespace NovaOS.Drivers

open NovaOS.Lib NovaOS.Mem

/-- `GPU_USER_MEM_BASE`. -/
def gpuUserMemBase : ℕ := 0x0000600000000000

/-- `GPU_USER_MEM_MAX`. -/
def gpuUserMemMax : ℕ := 0x0000700000000000

inductive NagResourceType where
  | buffer
  | twoD
  | other
deriving DecidableEq, Repr

inductive NagPixelFormat where
  | none
  | b8g8r8a8Unorm
  | r8g8b8a8Unorm
  | r32g32b32a32Float
deriving DecidableEq, Repr

def nagResUsageRenderTarget : BitVec 32 := 1#32 <<< 0
def nagResUsageVertexBuffer : BitVec 32 := 1#32 <<< 1
def nagResUsageIndexBuffer : BitVec 32 := 1#32 <<< 2
def nagResUsageTex : BitVec 32 := 1#32 <<< 3
def nagResUsageConst : BitVec 32 := 1#32 <<< 4
def nagResUsageStaging : BitVec 32 := 1#32 <<< 5

/-- The request. -/
structure NagResourceCreateArgs where
  contextId : BitVec 32
  type : NagResourceType
  usage : BitVec 32
  format : NagPixelFormat
  width : BitVec 32
  height : BitVec 32
  depth : BitVec 32

/-- What a request is answered with. -/
structure NagResource where
  resourceId : BitVec 32
  cpuAddress : ℕ
  size : ℕ
deriving DecidableEq, Repr

/-- `translatePixelFormat`: the device's format and the bytes per pixel. -/
def translatePixelFormat : NagPixelFormat → BitVec 32 × ℕ
  | .b8g8r8a8Unorm => (1, 4)
  | .r8g8b8a8Unorm => (67, 4)
  | .r32g32b32a32Float => (31, 16)
  | .none => (0, 1)

/-- `translateBindFlags`. -/
def translateBindFlags (usage : BitVec 32) (type : NagResourceType) : BitVec 32 :=
  let on (flag bit : BitVec 32) : BitVec 32 := if usage &&& flag ≠ 0#32 then bit else 0#32
  let bind := on nagResUsageRenderTarget (1#32 <<< 1) ||| on nagResUsageTex (1#32 <<< 3) |||
    on nagResUsageVertexBuffer (1#32 <<< 4) ||| on nagResUsageIndexBuffer (1#32 <<< 5) |||
    on nagResUsageConst (1#32 <<< 6) ||| on nagResUsageStaging (1#32 <<< 17)
  if bind ≠ 0#32 then bind
  else if type = .buffer then 1#32 <<< 4 ||| 1#32 <<< 5
  else 1#32 <<< 1 ||| 1#32 <<< 3

/-- What the first part of `virtioGpuResourceCreate` makes of a request. -/
structure Layout where
  target : BitVec 32
  format : BitVec 32
  height : BitVec 32
  depth : BitVec 32
  byteSize : ℕ

namespace NagResourceCreateArgs

/-- The target, the format and the size; `none` for a request that is refused. -/
def layout (a : NagResourceCreateArgs) : Option Layout :=
  if a.width = 0#32 then none
  else
    match a.type with
    | .buffer => some ⟨0, 0, 1, 1, a.width.toNat⟩
    | .twoD =>
      if a.height = 0#32 then none
      else
        let (format, bpp) := translatePixelFormat a.format
        let depth := if a.depth = 0#32 then 1#32 else a.depth
        some ⟨2, format, a.height, depth,
          wrap64 (wrap64 (wrap64 (a.width.toNat * a.height.toNat) * depth.toNat) * bpp)⟩
    | .other => none

end NagResourceCreateArgs

/-- `(byteSize + PAGE_SIZE - 1) / PAGE_SIZE`. -/
def pagesOf (byteSize : ℕ) : ℕ := wrap64 (byteSize + (pageSize - 1)) / pageSize

/-- A record of `gpu->resources`. -/
structure VirtioGpuResource where
  resourceId : BitVec 32
  contextId : BitVec 32
  width : BitVec 32
  height : BitVec 32
  depth : BitVec 32
  format : BitVec 32
  target : BitVec 32
  bind : BitVec 32
  physBase : ℕ
  pageCount : ℕ
  byteSize : ℕ
  userVirt : ℕ
  proc : ℕ
deriving DecidableEq, Repr

structure NagSubmitArgs where
  contextId : ℕ
  commands : ℕ
  commandSize : ℕ
  fenceId : ℕ
deriving DecidableEq, Repr

structure NagTransferArgs where
  contextId : BitVec 32
  resourceId : BitVec 32
  toHost : Bool
  x : BitVec 32
  y : BitVec 32
  z : BitVec 32
  width : BitVec 32
  height : BitVec 32
  depth : BitVec 32
  offset : BitVec 64
deriving DecidableEq, Repr

/-- The commands that the device is sent. -/
inductive GpuCmd where
  | ctxCreate (ctxId : BitVec 32) (debugName : List UInt8)
  | ctxDestroy (ctxId : BitVec 32)
  | resourceCreate3d (ctxId resourceId target format bind width height depth : BitVec 32)
  | resourceAttachBacking (resourceId : BitVec 32) (addr : ℕ) (length : BitVec 32)
  | ctxAttachResource (ctxId resourceId : BitVec 32)
  | ctxDetachResource (ctxId resourceId : BitVec 32)
  | resourceDetachBacking (resourceId : BitVec 32)
  | resourceUnref (resourceId : BitVec 32)
  | submit3d (fenceId : ℕ) (args : NagSubmitArgs)
  | transferHost3d (fenceId : ℕ) (args : NagTransferArgs)
deriving DecidableEq, Repr

/-- The device, with the commands it was sent, newest first. -/
structure VirtioGpuDevice where
  resources : List VirtioGpuResource
  nextResourceId : BitVec 32
  gGpuUserVirtCursor : ℕ
  kzallocDenials : List Bool
  answers : List Bool
  commands : List GpuCmd

/-- The machine: its memory, its processes and the device. -/
structure GpuSystem where
  vmm : Vmm
  procs : ℕ → Process
  gpu : VirtioGpuDevice

/-- The flags of the pages of a resource. -/
def gpuPteFlags : Pte := vmmFlagPresent ||| vmmFlagWritable ||| vmmFlagUser

/-- The addresses of a run of frames. -/
def frameRun (physAddr count : ℕ) : List ℕ :=
  (List.range count).map fun k => physAddr + k * pageSize

/-- `pmm_alloc_frames` on the machine. -/
def pmmAllocFrames (m : Vmm) (count : ℕ) : ℕ × Vmm :=
  let r := m.pmm.pmmAllocFrames count
  (r.1, { m with
    pmm := r.2
    allocated := if r.1 = 0 then m.allocated else frameRun r.1 count ++ m.allocated })

theorem pos_of_pmmAllocFrames {m : Vmm} {n : ℕ} (h : (pmmAllocFrames m n).1 ≠ 0) : 0 < n := by
  rcases Nat.eq_zero_or_pos n with rfl | hpos
  · exact absurd (by rfl) h
  · exact hpos

/-- `pmm_free_frames` on the machine. -/
def pmmFreeFrames (m : Vmm) (physAddr count : ℕ) : Vmm :=
  { m with
    pmm := m.pmm.pmmFreeFrames physAddr count
    freed := frameRun physAddr count ++ m.freed }

/-- The cursor after a resource of `size` bytes. -/
def nextGpuCursor (cursor size : ℕ) : ℕ :=
  if wrap64 (cursor + size) ≥ gpuUserMemMax then gpuUserMemBase else wrap64 (cursor + size)

/-- The mapping of a resource into a process, with the address it got: the area is asked for, but the
pages are mapped even when it was refused. -/
def mapResource (p : Process) (userVirt physFrames size : ℕ) : ℕ × Process :=
  let p := (p.vmaCreate userVirt size (vmaRead ||| vmaWrite ||| vmaUser)).2
  match p.vmm.vmmMapRange p.pml4 userVirt physFrames size gpuPteFlags with
  | (0, m) => (userVirt, { p with vmm := m })
  | (_, m) => (0, ({ p with vmm := m }.vmaDestroy userVirt size).2)

namespace GpuSystem

/-- A process in the memory as it is. -/
def proc (s : GpuSystem) (i : ℕ) : Process := { s.procs i with vmm := s.vmm }

/-- The machine after a step of process `i`. -/
def setProc (s : GpuSystem) (i : ℕ) (p : Process) : GpuSystem :=
  { s with vmm := p.vmm, procs := Function.update s.procs i p }

/-- `virtioGpuSendControlCmd`, and whether it was answered with `VIRTIO_GPU_RESP_OK_NODATA`. -/
def sendControlCmd (s : GpuSystem) (cmd : GpuCmd) : Bool × GpuSystem :=
  (s.gpu.answers.head? != some false,
    { s with gpu := { s.gpu with
      answers := s.gpu.answers.tail
      commands := cmd :: s.gpu.commands } })

/-- `gpu->nextResourceId++`, which passes over zero. -/
def takeResourceId (s : GpuSystem) : BitVec 32 × GpuSystem :=
  let id := s.gpu.nextResourceId
  let taken := if id = 0#32 then id + 1#32 else id
  (taken, { s with gpu := { s.gpu with nextResourceId := taken + 1#32 } })

/-- `kzalloc(sizeof(VirtioGpuResource))`. -/
def kzallocResource (s : GpuSystem) : Bool × GpuSystem :=
  (s.gpu.kzallocDenials.head? != some true,
    { s with gpu := { s.gpu with kzallocDenials := s.gpu.kzallocDenials.tail } })

/-- The commands that make a resource known to the device; `false` if one is refused, after undoing
those before it. -/
def announce (s : GpuSystem) (args : NagResourceCreateArgs) (l : Layout) (resId : BitVec 32)
    (physFrames pageCount : ℕ) : Bool × GpuSystem :=
  let (ok, s) := s.sendControlCmd (.resourceCreate3d args.contextId resId l.target l.format
    (translateBindFlags args.usage args.type) args.width l.height l.depth)
  if !ok then (false, s)
  else
    let (ok, s) := s.sendControlCmd (.resourceAttachBacking resId physFrames
      (BitVec.ofNat 32 (pageCount * pageSize)))
    if !ok then (false, (s.sendControlCmd (.resourceUnref resId)).2)
    else if args.contextId = 0#32 then (true, s)
    else
      let (ok, s) := s.sendControlCmd (.ctxAttachResource args.contextId resId)
      if !ok then
        (false, ((s.sendControlCmd (.resourceDetachBacking resId)).2.sendControlCmd
          (.resourceUnref resId)).2)
      else (true, s)

/-- The last part of `virtioGpuResourceDestroy`: the pages, the areas and the frames of a record that
has been taken off the list. -/
def releaseResource (s : GpuSystem) (target : VirtioGpuResource) : GpuSystem :=
  let p := s.proc target.proc
  let size := wrap64 (target.pageCount * pageSize)
  let s :=
    if target.userVirt ≠ 0 ∧ p.pml4 ≠ 0 then
      s.setProc target.proc ({ p with
        vmm := (p.vmm.vmmUnmapRange p.pml4 target.userVirt size).2 }.vmaDestroy target.userVirt size).2
    else s
  if target.physBase ≠ 0 ∧ target.pageCount > 0 then
    { s with vmm := pmmFreeFrames s.vmm target.physBase target.pageCount }
  else s

/-- `virtioGpuResourceDestroy`. -/
def virtioGpuResourceDestroy (s : GpuSystem) (ctxId resId : BitVec 32) : ℤ × GpuSystem :=
  if resId = 0#32 then (-1, s)
  else
    match s.gpu.resources.find? (fun r => r.resourceId == resId) with
    | none => (-1, s)
    | some target =>
      let s := { s with gpu := { s.gpu with
        resources := s.gpu.resources.eraseP fun r => r.resourceId == resId } }
      let s :=
        if ctxId ≠ 0#32 ∨ target.contextId ≠ 0#32 then
          (s.sendControlCmd (.ctxDetachResource
            (if ctxId ≠ 0#32 then ctxId else target.contextId) resId)).2
        else s
      let s := (s.sendControlCmd (.resourceDetachBacking resId)).2
      let s := (s.sendControlCmd (.resourceUnref resId)).2
      (0, s.releaseResource target)

/-- The end of `virtioGpuResourceCreate`: the resource is mapped into the current process and listed. -/
def listResource (s : GpuSystem) (curr : ℕ) (args : NagResourceCreateArgs) (l : Layout)
    (resId : BitVec 32) (physFrames pageCount : ℕ) : Option NagResource × GpuSystem :=
  let size := wrap64 (pageCount * pageSize)
  let (userVirt, s) :=
    if (s.proc curr).pml4 ≠ 0 then
      let r := mapResource (s.proc curr) s.gpu.gGpuUserVirtCursor physFrames size
      let s := { s with gpu := { s.gpu with
        gGpuUserVirtCursor := nextGpuCursor s.gpu.gGpuUserVirtCursor size } }
      (r.1, s.setProc curr r.2)
    else (0, s)
  let res : VirtioGpuResource :=
    { resourceId := resId, contextId := args.contextId, width := args.width, height := l.height
      depth := l.depth, format := l.format, target := l.target
      bind := translateBindFlags args.usage args.type, physBase := physFrames
      pageCount := pageCount, byteSize := l.byteSize, userVirt := userVirt, proc := curr }
  (some ⟨resId, if userVirt ≠ 0 then userVirt else wrap64 (physFrames + hhdmBase), l.byteSize⟩,
    { s with gpu := { s.gpu with resources := res :: s.gpu.resources } })

/-- `virtioGpuResourceCreate` in the process `curr`; `none` is `-1`. -/
def virtioGpuResourceCreate (s : GpuSystem) (curr : ℕ) (args : NagResourceCreateArgs) :
    Option NagResource × GpuSystem :=
  match args.layout with
  | none => (none, s)
  | some l =>
    let pageCount := pagesOf l.byteSize
    let (physFrames, m) := pmmAllocFrames s.vmm pageCount
    let s := { s with vmm := m }
    if physFrames = 0 then (none, s)
    else
      let (resId, s) := s.takeResourceId
      let (ok, s) := s.announce args l resId physFrames pageCount
      if !ok then (none, { s with vmm := pmmFreeFrames s.vmm physFrames pageCount })
      else
        let (ok, s) := s.kzallocResource
        if !ok then (none, (s.virtioGpuResourceDestroy args.contextId resId).2)
        else s.listResource curr args l resId physFrames pageCount

end GpuSystem

end NovaOS.Drivers
