import NovaOS.Drivers.GpuOwner
import NovaOS.Drivers.GpuSubmit

/-!
# Operations on the virtio-gpu adapter

Reference: `kernel/syscall/sysnagdispatch.c`, `drivers/virtiogpu/ophandler.c`,
`drivers/virtiogpu/resources.c`, `drivers/virtiogpu/context.c`, `drivers/virtiogpu/submit.c`.

`sysNagDispatch` of the process `curr`, with every operation of `virtioGpuDispatch`. The pages of the
process that the kernel touches while it copies are brought in by the page-fault handler.

What an operation does beyond the records of the driver is kept in two logs. `commands` has what the
device is told; the device may change the contents of a resource, on its frames or on the host, and of a
context, if a command names it (`GpuCmd.objects`). `written` has the physical memory that a submission
writes through the direct map: its headers, and as many bytes of the commands as it gets to copy. A size
that wraps gets too few frames for its commands, and the copy runs on behind them until an exception
stops it.
-/

namespace NovaOS.Mem.Process

/-- A page fault that the kernel takes on its own stack. -/
structure KernelFault extends Fault where
  kernel_rsp : userSpaceMax + 256 ≤ rsp.toNat

end NovaOS.Mem.Process

namespace NovaOS.Drivers

open NovaOS.Lib NovaOS.Mem

/-- `sizeof(req.debugName)`. -/
def sizeofDebugName : ℕ := 64

/-- `sizeof(ctx->name)`. -/
def sizeofContextName : ℕ := 32

/-- A record of `gpu->contexts`. The driver does not keep the process that made it; `proc` is here to
say whose context it is. -/
structure VirtioGpuContext where
  contextId : BitVec 32
  name : List UInt8
  proc : ℕ
deriving DecidableEq, Repr

/-- What the device keeps for the processes. -/
inductive GpuObject where
  | resource (id : BitVec 32)
  | context (id : BitVec 32)
deriving DecidableEq, Repr

/-- The objects that a command may change, where `rs` are the resources. A submission works on the
resources of its context. -/
def GpuCmd.objects (rs : List VirtioGpuResource) : GpuCmd → List GpuObject
  | .ctxCreate ctxId _ => [.context ctxId]
  | .ctxDestroy ctxId => [.context ctxId]
  | .resourceCreate3d _ resId _ _ _ _ _ _ => [.resource resId]
  | .resourceAttachBacking resId _ _ => [.resource resId]
  | .ctxAttachResource ctxId resId => [.context ctxId, .resource resId]
  | .ctxDetachResource ctxId resId => [.context ctxId, .resource resId]
  | .resourceDetachBacking resId => [.resource resId]
  | .resourceUnref resId => [.resource resId]
  | .submit3d _ args =>
    let ctxId := BitVec.ofNat 32 args.contextId
    .context ctxId :: (rs.filter fun r => ctxId ≠ 0#32 && r.contextId = ctxId).map (.resource ·.resourceId)
  | .transferHost3d _ args => [.resource args.resourceId]

/-- How the copy of the commands goes: the page faults that it takes on pages of the process, and the
bytes it copies until it is done or an exception stops it. -/
structure CommandCopy (args : NagSubmitArgs) where
  faults : List Process.KernelFault
  copied : ℕ
  copied_le : copied ≤ args.commandSize
  -- such a range has addresses that are not canonical (`NagSystem.not_backed_of_wrap`)
  copied_lt : 2 ^ 64 ≤ sizeofVirtioGpuCmdSubmit3d + args.commandSize → copied < args.commandSize

/-- A call that has got as far as the driver: the operation and the argument that was copied. `refused`
stands for an operation that there is not, an argument that is missing or too short and an adapter that
is not there. Where the driver itself copies from or to the process, the page faults taken are given. -/
inductive NagRequest where
  | query (faults : List Process.KernelFault)
  | contextCreate (name : List UInt8)
  | contextDestroy (contextId : BitVec 32)
  | resourceCreate (args : NagResourceCreateArgs)
  | resourceDestroy (contextId resourceId : BitVec 32)
  | submit (args : NagSubmitArgs) (copy : CommandCopy args)
  | transfer (args : NagTransferArgs)
  | waitFence (fenceId : ℕ)
  | refused

namespace GpuSystem

/-- Page faults that the kernel takes one after another on pages of process `curr`; `false` if one of
them is an exception. -/
def touch (curr : ℕ) : List Process.KernelFault → GpuSystem → Bool × GpuSystem
  | [], s => (true, s)
  | f :: faults, s =>
    match (s.proc curr).vmmPageFaultHandler f.toFault with
    | (.resume, p) => touch curr faults (s.setProc curr p)
    | (_, p) => (false, s.setProc curr p)

end GpuSystem

/-- The machine with all that the driver keeps. `recordFrames` are the frames in which the kernel has its
records of the processes and of their areas and resources. -/
structure NagMachine where
  sys : GpuSystem
  contexts : List VirtioGpuContext
  nextContextId : BitVec 32
  nextFenceId : ℕ
  lastCompletedFence : ℕ
  kmallocDenials : List Bool
  recordFrames : List ℕ
  written : List (ℕ × ℕ)

namespace NagMachine

/-- `virtioGpuSendControlCmd`, and whether it was answered with `VIRTIO_GPU_RESP_OK_NODATA`. -/
def sendControlCmd (m : NagMachine) (cmd : GpuCmd) : Bool × NagMachine :=
  let (ok, sys) := m.sys.sendControlCmd cmd
  (ok, { m with sys := sys })

/-- `kmalloc`, which fails where a denial is next. -/
def kmalloc (m : NagMachine) : Bool × NagMachine :=
  (m.kmallocDenials.head? != some true, { m with kmallocDenials := m.kmallocDenials.tail })

/-- The number that the next context gets: `gpu->nextContextId++`, which passes over zero. -/
def newContextId (m : NagMachine) : BitVec 32 :=
  if m.nextContextId = 0#32 then m.nextContextId + 1#32 else m.nextContextId

/-- `virtioGpuContextCreate` in the process `curr`. -/
def virtioGpuContextCreate (m : NagMachine) (curr : ℕ) (name : List UInt8) : ℤ × NagMachine :=
  let ctxId := m.newContextId
  let m := { m with nextContextId := ctxId + 1#32 }
  let (ok, m) := m.sendControlCmd (.ctxCreate ctxId (name.take (sizeofDebugName - 1)))
  if !ok then (-1, m)
  else
    let (ok, m) := m.kmalloc
    if !ok then (-1, (m.sendControlCmd (.ctxDestroy ctxId)).2)
    else (0, { m with contexts := ⟨ctxId, name.take (sizeofContextName - 1), curr⟩ :: m.contexts })

/-- `virtioGpuContextDestroy`. -/
def virtioGpuContextDestroy (m : NagMachine) (ctxId : BitVec 32) : ℤ × NagMachine :=
  if ctxId = 0#32 then (-1, m)
  else
    match m.contexts.find? (fun c => c.contextId == ctxId) with
    | none => (-1, m)
    | some _ =>
      let m := { m with contexts := m.contexts.eraseP fun c => c.contextId == ctxId }
      let (ok, m) := m.sendControlCmd (.ctxDestroy ctxId)
      (if ok then 0 else -1, m)

/-- `virtioGpuSubmit` once it has tried to get its frames. -/
def submitFrames (m : NagMachine) (curr : ℕ) (args : NagSubmitArgs) (f : NagSystem.SubmitFrames)
    (copy : CommandCopy args) : Option ℤ × NagMachine :=
  if f.reqPhys = 0 ∨ f.respPhys = 0 then
    (some (-1), { m with sys := { m.sys with vmm := NagSystem.freeFrames f } })
  else
    let fence := m.nextFenceId
    let (ok, sys) := { m.sys with vmm := f.vmm }.touch curr copy.faults
    let m := { m with
      sys := sys
      nextFenceId := wrap64 (fence + 1)
      written := (f.reqPhys + sizeofVirtioGpuCmdSubmit3d, copy.copied) ::
        (f.reqPhys, sizeofVirtioGpuCmdSubmit3d) :: (f.respPhys, sizeofVirtioGpuCtrlHdr) :: m.written }
    -- the frames of a submission that ends in an exception stay taken
    if ok = false ∨ copy.copied < args.commandSize then (none, m)
    else
      let (ok, m) := m.sendControlCmd (.submit3d fence args)
      let m := { m with sys := { m.sys with
        vmm := NagSystem.freeFrames { f with vmm := m.sys.vmm } } }
      if ok then (some 0, { m with lastCompletedFence := max fence m.lastCompletedFence })
      else (some (-1), m)

/-- `virtioGpuSubmit` in the process `curr`; `none` is an exception. -/
def virtioGpuSubmit (m : NagMachine) (curr : ℕ) (args : NagSubmitArgs) (copy : CommandCopy args) :
    Option ℤ × NagMachine :=
  if args.commands = 0 ∨ args.commandSize = 0 ∨ args.commandSize % 4 ≠ 0 then (some (-1), m)
  else m.submitFrames curr args (NagSystem.allocFrames m.sys.vmm args) copy

/-- `virtioGpuTransfer`, which looks for the resource but not for its owner. -/
def virtioGpuTransfer (m : NagMachine) (args : NagTransferArgs) : ℤ × NagMachine :=
  if args.resourceId = 0#32 then (-1, m)
  else if m.sys.gpu.resources.any (fun r => r.resourceId == args.resourceId) = false then (-1, m)
  else
    let fence := m.nextFenceId
    let m := { m with nextFenceId := wrap64 (fence + 1) }
    let (ok, m) := m.sendControlCmd (.transferHost3d fence args)
    if !ok then (-1, m)
    else (0, { m with lastCompletedFence := max fence m.lastCompletedFence })

/-- `virtioGpuWaitFence` while no other call completes a fence: the loop ends at its timeout. -/
def virtioGpuWaitFence (m : NagMachine) (fenceId : ℕ) : ℤ :=
  if m.lastCompletedFence ≥ fenceId then 0 else -1

/-- `virtioGpuDispatch` in the process `curr`; `none` is an exception. -/
def virtioGpuDispatch (m : NagMachine) (curr : ℕ) : NagRequest → Option ℤ × NagMachine
  | .query faults =>
    let (ok, sys) := m.sys.touch curr faults
    (if ok then some 0 else none, { m with sys := sys })
  | .contextCreate name =>
    let (ret, m) := m.virtioGpuContextCreate curr name
    (some ret, m)
  | .contextDestroy contextId =>
    let (ret, m) := m.virtioGpuContextDestroy contextId
    (some ret, m)
  | .resourceCreate args =>
    let (res, sys) := m.sys.virtioGpuResourceCreate curr args
    (some (if res.isSome then 0 else -1), { m with sys := sys })
  | .resourceDestroy contextId resourceId =>
    let (ret, sys) := m.sys.virtioGpuResourceDestroy contextId resourceId
    (some ret, { m with sys := sys })
  | .submit args copy => m.virtioGpuSubmit curr args copy
  | .transfer args =>
    let (ret, m) := m.virtioGpuTransfer args
    (some ret, m)
  | .waitFence fenceId => (some (m.virtioGpuWaitFence fenceId), m)
  | .refused => (some (-1), m)

/-- The first half of `sysNagDispatch`: the argument is checked and copied. An error is how the call
ends before it gets to the driver. -/
def copyArgument (m : NagMachine) (curr arg argSize : ℕ) (faults : List Process.KernelFault) :
    Except (Option ℤ × NagMachine) NagMachine :=
  -- no operation accepts a call without an argument
  if argSize = 0 ∨ arg = 0 then .error (some (-1), m)
  else if (m.sys.proc curr).validateUserRange arg argSize true = false then .error (some (-14), m)
  else
    let (ok, m) := if argSize > 256 then m.kmalloc else (true, m)
    if !ok then .error (some (-12), m)
    else if (m.sys.proc curr).validateUserRange arg argSize false = false then
      .error (some (-14), m)
    else
      let (ok, sys) := m.sys.touch curr faults
      let m := { m with sys := sys }
      if ok then .ok m else .error (none, m)

/-- The second half of `sysNagDispatch`: the operation, and the argument copied back. -/
def answer (m : NagMachine) (curr arg argSize : ℕ) (req : NagRequest)
    (faults : List Process.KernelFault) : Option ℤ × NagMachine :=
  match m.virtioGpuDispatch curr req with
  | (none, m) => (none, m)
  | (some ret, m) =>
    if ret < 0 then (some ret, m)
    else if (m.sys.proc curr).validateUserRange arg argSize true = false then (some (-14), m)
    else
      let (ok, sys) := m.sys.touch curr faults
      (if ok then some ret else none, { m with sys := sys })

/-- `sysNagDispatch` in the process `curr`, whose argument holds `req`. The page faults are those taken
while the argument is copied in and out; `none` is an exception. -/
def sysNagDispatch (m : NagMachine) (curr arg argSize : ℕ) (req : NagRequest)
    (faultsIn faultsOut : List Process.KernelFault) : Option ℤ × NagMachine :=
  match m.copyArgument curr arg argSize faultsIn with
  | .error r => r
  | .ok m => m.answer curr arg argSize req faultsOut

end NagMachine

/-! ## What the device is told -/

namespace GpuSystem

/-- A step whose commands may change just the objects `objs`. -/
def Sends (rs : List VirtioGpuResource) (s s' : GpuSystem) (objs : List GpuObject) : Prop :=
  ∃ sent, s'.gpu.commands = sent ++ s.gpu.commands ∧ ∀ o, o ∈ sent.flatMap (·.objects rs) ↔ o ∈ objs

/-- The context that `virtioGpuResourceDestroy` takes the resource out of. -/
def detached (ctxId : BitVec 32) (target : VirtioGpuResource) : BitVec 32 :=
  if ctxId ≠ 0#32 then ctxId else target.contextId

/-- What `virtioGpuResourceDestroy` names: nothing unless it finds a record. -/
def destroyNames (s : GpuSystem) (ctxId resId : BitVec 32) : List GpuObject :=
  if resId = 0#32 then []
  else
    match s.gpu.resources.find? (fun r => r.resourceId == resId) with
    | none => []
    | some target =>
      .resource resId :: if detached ctxId target ≠ 0#32 then [.context (detached ctxId target)] else []

/-- The new resource of `virtioGpuResourceCreate` gets as far as being put into its context. -/
def attaches (s : GpuSystem) (args : NagResourceCreateArgs) : Bool :=
  args.contextId ≠ 0#32 && s.gpu.answers.head? != some false && s.gpu.answers.tail.head? != some false

/-- What `virtioGpuResourceCreate` names: nothing unless it gets frames. -/
def createNames (s : GpuSystem) (args : NagResourceCreateArgs) : List GpuObject :=
  match args.layout with
  | none => []
  | some l =>
    if (pmmAllocFrames s.vmm (pagesOf l.byteSize)).1 = 0 then []
    else
      .resource s.takeResourceId.1 :: (if s.attaches args then [.context args.contextId] else []) ++
        if s.undoes args then s.destroyNames args.contextId s.takeResourceId.1 else []

section Sends

variable {s s' s'' : GpuSystem} {rs : List VirtioGpuResource} {objs objs' : List GpuObject}

theorem Sends.trans (h : Sends rs s s' objs) (h' : Sends rs s' s'' objs') :
    Sends rs s s'' (objs ++ objs') := by
  obtain ⟨sent, heq, hobjs⟩ := h
  obtain ⟨sent', heq', hobjs'⟩ := h'
  refine ⟨sent' ++ sent, by rw [heq', heq, List.append_assoc], fun o => ?_⟩
  rw [List.flatMap_append, List.mem_append, List.mem_append, hobjs, hobjs', or_comm]

theorem Sends.congr (h : Sends rs s s' objs) (hs : s''.gpu.commands = s'.gpu.commands) :
    Sends rs s s'' objs :=
  let ⟨sent, heq, hobjs⟩ := h
  ⟨sent, hs.trans heq, hobjs⟩

variable {curr : ℕ}

/-- What one page fault keeps is kept by any number of them. -/
theorem touch_induction {P : GpuSystem → Prop} (faults : List Process.KernelFault)
    (h : P s) (hstep : ∀ s (f : Process.KernelFault), P s →
      P (s.setProc curr ((s.proc curr).vmmPageFaultHandler f.toFault).2)) :
    P (s.touch curr faults).2 := by
  induction faults generalizing s with
  | nil => exact h
  | cons f faults ih =>
    have hnext := hstep s f h
    rw [touch]
    generalize (s.proc curr).vmmPageFaultHandler f.toFault = r at hnext
    obtain ⟨res, p⟩ := r
    cases res with
    | resume => exact ih hnext
    | threadExit => exact hnext
    | exception => exact hnext

theorem touch_gpu (faults : List Process.KernelFault) (s : GpuSystem) :
    (s.touch curr faults).2.gpu = s.gpu :=
  touch_induction (P := fun s' => s'.gpu = s.gpu) faults rfl fun _ _ h => h

end Sends

end GpuSystem

namespace NagMachine

open GpuSystem

/-- A submission passes the checks and gets its frames. -/
def starts (m : NagMachine) (args : NagSubmitArgs) : Prop :=
  ¬(args.commands = 0 ∨ args.commandSize = 0 ∨ args.commandSize % 4 ≠ 0) ∧
    ¬((NagSystem.allocFrames m.sys.vmm args).reqPhys = 0 ∨
      (NagSystem.allocFrames m.sys.vmm args).respPhys = 0)

instance (m : NagMachine) (args : NagSubmitArgs) : Decidable (m.starts args) :=
  inferInstanceAs (Decidable (_ ∧ _))

/-- The commands of a submission are copied to the end. -/
def copies (m : NagMachine) (curr : ℕ) (args : NagSubmitArgs) (copy : CommandCopy args) : Prop :=
  ¬(({ m.sys with vmm := (NagSystem.allocFrames m.sys.vmm args).vmm }.touch curr copy.faults).1 = false ∨
    copy.copied < args.commandSize)

instance (m : NagMachine) (curr : ℕ) (args : NagSubmitArgs) (copy : CommandCopy args) :
    Decidable (m.copies curr args copy) :=
  inferInstanceAs (Decidable (¬_))

/-- The objects that the commands of an operation name. -/
def names (m : NagMachine) (curr : ℕ) : NagRequest → List GpuObject
  | .contextCreate _ => [.context m.newContextId]
  | .contextDestroy ctxId =>
    if ctxId ≠ 0#32 && m.contexts.any (fun c => c.contextId == ctxId) then [.context ctxId] else []
  | .resourceCreate args => m.sys.createNames args
  | .resourceDestroy ctxId resId => m.sys.destroyNames ctxId resId
  | .submit args copy =>
    if m.starts args ∧ m.copies curr args copy then
      (GpuCmd.submit3d m.nextFenceId args).objects m.sys.gpu.resources
    else []
  | .transfer args =>
    if args.resourceId ≠ 0#32 && m.sys.gpu.resources.any (fun r => r.resourceId == args.resourceId) then
      [.resource args.resourceId]
    else []
  | .query _ => []
  | .waitFence _ => []
  | .refused => []

section Dispatch

variable {m : NagMachine} {rs : List VirtioGpuResource} {curr : ℕ}

end Dispatch

end NagMachine

end NovaOS.Drivers
