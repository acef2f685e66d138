import NovaOS.Drivers.GpuResource
import NovaOS.Lib.Bytes
import NovaOS.Mem.UserCopy
import NovaOS.Mem.VmmShare

/-!
# Command submission

Reference: `kernel/syscall/sysnagdispatch.c`, `kernel/nag/nag.c`, `drivers/virtiogpu/ophandler.c`,
`drivers/virtiogpu/submit.c`, `drivers/virtiogpu/virtqueue.c`, `drivers/virtiogpu/virtioGpuProtocol.h`.

`sysNagDispatch` with `NAG_GPU_OP_SUBMIT` in the process `proc`, down to the request that the device
reads. The argument is copied to a buffer of the kernel, and `virtioGpuSubmit` copies the commands by
`memcpy` also when `validate_user_range` rejects them. The buffer and the request lie in memory like
everything else, so that the commands may start in them, or so shortly before the place they are copied
to that the copy reads what it has written.

Two memories that are the same where the process can read give the same requests exactly when every
byte of the commands that the device gets to see is readable by the process, or was written by the call
before it is copied, or the copy ends in an exception (`submitted_eq_iff`).
-/

namespace NovaOS.Drivers

open NovaOS.Lib NovaOS.Mem List Option

/-- `sizeof(VirtioGpuCtrlHdr)`. -/
def sizeofVirtioGpuCtrlHdr : ℕ := 24

/-- `sizeof(VirtioGpuCmdSubmit3d)`. -/
def sizeofVirtioGpuCmdSubmit3d : ℕ := 32

/-- `sizeof(NagSubmitArgs)`. -/
def sizeofNagSubmitArgs : ℕ := 32

def virtioGpuCmdSubmit3d : ℕ := 0x0207
def virtioGpuFlagFence : ℕ := 1

/-- The arguments in a buffer, at the offsets of their fields. -/
def NagSubmitArgs.ofBytes (b : ℕ → UInt8) : NagSubmitArgs where
  contextId := le32 b 0
  commands := le64 b 8
  commandSize := le64 b 16
  fenceId := le64 b 24

theorem NagSubmitArgs.ofBytes_congr {b b' : ℕ → UInt8} (h : ∀ i < sizeofNagSubmitArgs, b' i = b i) :
    ofBytes b' = ofBytes b := by
  simp only [ofBytes, le64, le32, le16]
  rw [sizeofNagSubmitArgs] at h
  simp only [h, Nat.reduceAdd, Nat.reduceLT]

/-- The header of a request: the control header, the size of the commands and the padding. -/
def submitHeader (fence : ℕ) (args : NagSubmitArgs) : List UInt8 :=
  toLe 4 virtioGpuCmdSubmit3d ++ toLe 4 virtioGpuFlagFence ++ toLe 8 fence ++
    toLe 4 args.contextId ++ replicate 4 0 ++ toLe 4 (wrap32 args.commandSize) ++
    replicate 4 0

/-- How the device reacts to a request. -/
inductive Answer where
  | ok
  | error
  | timeout
deriving DecidableEq, Repr

/-- The fields of `VirtioGpuDevice` that a submission uses, those of its control queue included. -/
structure SubmitDevice where
  queueSize : ℕ
  numFree : ℕ
  nextFenceId : ℕ
  lastCompletedFence : ℕ
deriving DecidableEq, Repr

/-- An adapter; `dispatchOp` is `virtioGpuDispatch` or null. -/
structure GpuAdapter where
  dispatchOp : Bool
  priv : Option SubmitDevice

/-- The machine as a submission sees it: `stackBuf` is the address of the buffer on the kernel's stack
and `kmallocs` has what the next calls of `kmalloc` return. `requests` are the `SUBMIT_3D` requests that
were put on the control queue, newest last; `answers` says how the device reacts to the next ones. -/
structure NagSystem where
  proc : Process
  mem : Memory
  stackBuf : ℕ
  kmallocs : List (Option ℕ)
  adapters : List (Option GpuAdapter)
  answers : List Answer
  requests : List (List UInt8)

namespace NagSystem

/-- The frames of a request and of its response. -/
structure SubmitFrames where
  reqPages : ℕ
  reqPhys : ℕ
  respPhys : ℕ
  vmm : Vmm

/-- The size of a request. -/
def totalBytes (args : NagSubmitArgs) : ℕ := wrap64 (sizeofVirtioGpuCmdSubmit3d + args.commandSize)

/-- The two allocations of `virtioGpuSubmit`. -/
def allocFrames (m : Vmm) (args : NagSubmitArgs) : SubmitFrames :=
  let reqPages := pagesOf (totalBytes args)
  let (reqPhys, m) := pmmAllocFrames m reqPages
  let (respPhys, m) := m.pmmAllocFrame
  ⟨reqPages, reqPhys, respPhys, m⟩

/-- The frames given back, those that were got. -/
def freeFrames (f : SubmitFrames) : Vmm :=
  let m := if f.reqPhys ≠ 0 then pmmFreeFrames f.vmm f.reqPhys f.reqPages else f.vmm
  if f.respPhys ≠ 0 then m.pmmFreeFrame f.respPhys else m

/-- The machine with another state of its frames and tables. -/
def withVmm (s : NagSystem) (m : Vmm) : NagSystem := { s with proc := { s.proc with vmm := m } }

/-- The response is cleared, then the header of the request filled in; `none` is an exception. -/
def fillHeaders (f : SubmitFrames) (fence : ℕ) (args : NagSubmitArgs) (m : Memory) : Option Memory :=
  (m.store (f.respPhys + hhdmBase) sizeofVirtioGpuCtrlHdr fun _ => 0).bind fun m =>
    m.store (f.reqPhys + hhdmBase) sizeofVirtioGpuCmdSubmit3d fun i =>
      (submitHeader fence args).getD i 0

/-- The commands are copied to `payloadDst`. The result of `copy_from_user` is not looked at. -/
def copyCommands (p : Process) (payloadDst : ℕ) (args : NagSubmitArgs) (m : Memory) : Option Memory :=
  if p.validateUserRange args.commands args.commandSize false = true then
    (p.copyFromUser m payloadDst args.commands args.commandSize).map Prod.snd
  else m.memcpy payloadDst args.commands args.commandSize

/-- The memory with the whole request. -/
def fillRequest (p : Process) (f : SubmitFrames) (fence : ℕ) (args : NagSubmitArgs) (m : Memory) :
    Option Memory :=
  (fillHeaders f fence args m).bind
    (copyCommands p (f.reqPhys + hhdmBase + sizeofVirtioGpuCmdSubmit3d) args)

/-- The request that the device reads. -/
def request (f : SubmitFrames) (args : NagSubmitArgs) (m : Memory) : List UInt8 :=
  (range (wrap32 (totalBytes args))).map fun i => m.ram (f.reqPhys + i)

/-- `virtqueueSubmitSg` with two buffers, the first holding `request`, and the wait for the answer;
`false` is a failure. -/
def sendRequest (s : NagSystem) (gpu : SubmitDevice) (request : List UInt8) :
    Bool × SubmitDevice × NagSystem :=
  if 2 > gpu.queueSize ∨ gpu.numFree < 2 then (false, gpu, s)
  else
    let s' := { s with answers := s.answers.tail, requests := s.requests ++ [request] }
    match s.answers.head? with
    | some .ok => (true, gpu, s')
    | some .error => (false, gpu, s')
    -- the descriptors of a request that is never answered stay taken
    | _ => (false, { gpu with numFree := gpu.numFree - 2 }, s')

/-- `virtioGpuSubmit`, with `*outFence` where it is written; a result `none` is an exception. -/
def virtioGpuSubmit (s : NagSystem) (gpu : SubmitDevice) (args : NagSubmitArgs) :
    Option ℤ × Option ℕ × SubmitDevice × NagSystem :=
  if args.commands = 0 ∨ args.commandSize = 0 ∨ args.commandSize % 4 ≠ 0 then
    (some (-1), none, gpu, s)
  else
    let f := allocFrames s.proc.vmm args
    if f.reqPhys = 0 ∨ f.respPhys = 0 then (some (-1), none, gpu, s.withVmm (freeFrames f))
    else
      let fence := gpu.nextFenceId
      let gpu := { gpu with nextFenceId := wrap64 (fence + 1) }
      match fillRequest s.proc f fence args s.mem with
      | none => (none, none, gpu, s.withVmm f.vmm)
      | some mem =>
        match { s with mem := mem }.sendRequest gpu (request f args mem) with
        | (true, gpu, s) =>
          (some 0, some fence, { gpu with lastCompletedFence := max fence gpu.lastCompletedFence },
            s.withVmm (freeFrames f))
        | (false, gpu, s) => (some (-1), none, gpu, s.withVmm (freeFrames f))

/-- The case `NAG_GPU_OP_SUBMIT` of `virtioGpuDispatch` for the adapter `id`, with the argument in a
buffer at `arg`. -/
def virtioGpuDispatch (s : NagSystem) (id : ℕ) (adapter : GpuAdapter) (arg argSize : ℕ) :
    Option ℤ × NagSystem :=
  if arg = 0 ∨ argSize < sizeofNagSubmitArgs then (some (-1), s)
  else
    match adapter.priv with
    | none => (some (-1), s)
    | some gpu =>
      let (ret, outFence, gpu, s) := s.virtioGpuSubmit gpu (.ofBytes (s.mem.byte arg))
      (ret, { s with
        mem := outFence.elim s.mem fun fence => s.mem.put (arg + 24) ((toLe 8 fence).getD · 0) 8
        adapters := s.adapters.set id (some { adapter with priv := some gpu }) })

/-- `nagDispatch` with `NAG_GPU_OP_SUBMIT`. -/
def nagDispatch (s : NagSystem) (adapterId arg argSize : ℕ) : Option ℤ × NagSystem :=
  match s.adapters[adapterId]? with
  | some (some adapter) =>
    if adapter.dispatchOp then s.virtioGpuDispatch adapterId adapter arg argSize else (some (-1), s)
  | _ => (some (-1), s)

/-- The buffer for the argument: `stackBuf` where its 256 bytes are enough. -/
def kmallocArg (s : NagSystem) (argSize : ℕ) : Option ℕ × NagSystem :=
  if argSize > 256 then (s.kmallocs.head?.join, { s with kmallocs := s.kmallocs.tail })
  else (some s.stackBuf, s)

theorem fst_kmallocArg (s : NagSystem) (argSize : ℕ) :
    (s.kmallocArg argSize).1 = if argSize > 256 then s.kmallocs.head?.join else some s.stackBuf := by
  unfold kmallocArg
  split <;> rfl

theorem snd_kmallocArg (s : NagSystem) (argSize : ℕ) :
    ∃ rest, (s.kmallocArg argSize).2 = { s with kmallocs := rest } := by
  unfold kmallocArg
  split <;> exact ⟨_, rfl⟩

/-- The second half of `sysNagDispatch`: the operation on the argument at `kbuf`, and the copy back. -/
def dispatchBuffer (s : NagSystem) (adapterId arg argSize kbuf : ℕ) : Option ℤ × NagSystem :=
  match s.nagDispatch adapterId kbuf argSize with
  | (none, s) => (none, s)
  | (some ret, s) =>
    if ret < 0 then (some ret, s)
    else
      match s.proc.copyToUser s.mem arg kbuf argSize with
      | none => (none, s)
      | some (err, mem) => (some (if err ≠ 0 then -14 else ret), { s with mem := mem })

/-- `sysNagDispatch` with `NAG_GPU_OP_SUBMIT`; a result `none` is an exception. -/
def sysNagDispatch (s : NagSystem) (adapterId arg argSize : ℕ) : Option ℤ × NagSystem :=
  if argSize = 0 ∨ arg = 0 then s.nagDispatch adapterId 0 0
  else if s.proc.validateUserRange arg argSize true = false then (some (-14), s)
  else
    match s.kmallocArg argSize with
    | (none, s) => (some (-12), s)
    | (some kbuf, s) =>
      match s.proc.copyFromUser s.mem kbuf arg argSize with
      | none => (none, s)
      | some (err, mem) =>
        if err ≠ 0 then (some (-14), { s with mem := mem })
        else { s with mem := mem }.dispatchBuffer adapterId arg argSize kbuf

/-! ## What a call submits -/

/-- The requests on the control queue after a call. -/
def submitted (s : NagSystem) (adapterId arg argSize : ℕ) : List (List UInt8) :=
  (s.sysNagDispatch adapterId arg argSize).2.requests

/-- The device of an adapter that can be called. -/
def device (s : NagSystem) (adapterId : ℕ) : Option SubmitDevice :=
  match s.adapters[adapterId]? with
  | some (some adapter) => if adapter.dispatchOp then adapter.priv else none
  | _ => none

/-- The buffer to which a call copies its argument, where nothing stops it. -/
def buffer (s : NagSystem) (arg argSize : ℕ) : Option ℕ :=
  if arg = 0 ∨ argSize = 0 ∨ s.proc.validateUserRange arg argSize true = false ∨
      s.proc.validateUserRange arg argSize false = false ∨ ¬s.mem.Backed arg argSize then none
  else (s.kmallocArg argSize).1.filter fun kbuf => s.mem.Backed kbuf argSize

/-- The device, the buffer and the arguments with which a call reaches `virtioGpuSubmit`. -/
def reached (s : NagSystem) (adapterId arg argSize : ℕ) :
    Option (SubmitDevice × ℕ × NagSubmitArgs) :=
  (s.buffer arg argSize).bind fun kbuf =>
    if kbuf = 0 ∨ argSize < sizeofNagSubmitArgs then none
    else (s.device adapterId).map fun gpu =>
      (gpu, kbuf, .ofBytes ((s.mem.copied kbuf arg argSize).byte kbuf))

/-- Nothing stops a submission but the copy: the arguments pass the checks, the frames are there, and
so is room on the queue. -/
structure Accepts (m : Vmm) (gpu : SubmitDevice) (args : NagSubmitArgs) : Prop where
  commands : args.commands ≠ 0
  size : args.commandSize ≠ 0 ∧ args.commandSize % 4 = 0
  frames : (allocFrames m args).reqPhys ≠ 0 ∧ (allocFrames m args).respPhys ≠ 0
  queue : 2 ≤ gpu.queueSize ∧ 2 ≤ gpu.numFree

instance (m : Vmm) (gpu : SubmitDevice) (args : NagSubmitArgs) : Decidable (Accepts m gpu args) :=
  decidable_of_iff (args.commands ≠ 0 ∧ (args.commandSize ≠ 0 ∧ args.commandSize % 4 = 0) ∧
      ((allocFrames m args).reqPhys ≠ 0 ∧ (allocFrames m args).respPhys ≠ 0) ∧
      2 ≤ gpu.queueSize ∧ 2 ≤ gpu.numFree)
    ⟨fun ⟨h₁, h₂, h₃, h₄⟩ => ⟨h₁, h₂, h₃, h₄⟩, fun ⟨h₁, h₂, h₃, h₄⟩ => ⟨h₁, h₂, h₃, h₄⟩⟩

/-- The request that a submission puts on the queue. -/
def placed (p : Process) (m : Memory) (gpu : SubmitDevice) (args : NagSubmitArgs) :
    Option (List UInt8) :=
  if Accepts p.vmm gpu args then
    (fillRequest p (allocFrames p.vmm args) gpu.nextFenceId args m).map
      (request (allocFrames p.vmm args) args)
  else none

theorem requests_sendRequest (s : NagSystem) (gpu : SubmitDevice) (request : List UInt8) :
    (s.sendRequest gpu request).2.2.requests =
      if 2 ≤ gpu.queueSize ∧ 2 ≤ gpu.numFree then s.requests ++ [request] else s.requests := by
  unfold sendRequest
  split
  · rw [if_neg (by omega)]
  · rw [if_pos (by omega)]
    split <;> rfl

theorem requests_virtioGpuSubmit (s : NagSystem) (gpu : SubmitDevice) (args : NagSubmitArgs) :
    (s.virtioGpuSubmit gpu args).2.2.2.requests =
      s.requests ++ (placed s.proc s.mem gpu args).toList := by
  unfold virtioGpuSubmit placed
  by_cases hargs : args.commands = 0 ∨ args.commandSize = 0 ∨ args.commandSize % 4 ≠ 0
  · have hnot : ¬Accepts s.proc.vmm gpu args := fun ⟨_, _, _, _⟩ => by omega
    simp [hargs, hnot]
  rw [if_neg hargs]
  by_cases hframes : (allocFrames s.proc.vmm args).reqPhys = 0 ∨ (allocFrames s.proc.vmm args).respPhys = 0
  · have hnot : ¬Accepts s.proc.vmm gpu args := fun ⟨_, _, _, _⟩ => by tauto
    simp [hframes, hnot, withVmm]
  have haccepts : Accepts s.proc.vmm gpu args ↔ 2 ≤ gpu.queueSize ∧ 2 ≤ gpu.numFree :=
    ⟨fun h => h.queue, fun h => ⟨by omega, by omega, by omega, h⟩⟩
  simp only [if_neg hframes, haccepts]
  cases fillRequest s.proc (allocFrames s.proc.vmm args) gpu.nextFenceId args s.mem with
  | none => simp [withVmm]
  | some mem =>
    have hsend := requests_sendRequest { s with mem := mem }
      { gpu with nextFenceId := wrap64 (gpu.nextFenceId + 1) }
      (request (allocFrames s.proc.vmm args) args mem)
    dsimp only
    refine .trans ?_ (hsend.trans ?_)
    · split <;> rename_i heq <;> rw [heq] <;> rfl
    · split <;> simp

theorem requests_nagDispatch (s : NagSystem) (adapterId arg argSize : ℕ) :
    (s.nagDispatch adapterId arg argSize).2.requests =
      s.requests ++ (if arg = 0 ∨ argSize < sizeofNagSubmitArgs then none
        else (s.device adapterId).bind fun gpu =>
          placed s.proc s.mem gpu (.ofBytes (s.mem.byte arg))).toList := by
  unfold nagDispatch device
  split
  · rename_i adapter _
    cases adapter.dispatchOp with
    | false => simp
    | true =>
      simp only [if_true, virtioGpuDispatch]
      split
      · simp
      · cases adapter.priv with
        | none => simp
        | some gpu =>
          rw [bind_some, ← requests_virtioGpuSubmit]
  · simp

theorem requests_dispatchBuffer (s : NagSystem) (adapterId arg argSize kbuf : ℕ) :
    (s.dispatchBuffer adapterId arg argSize kbuf).2.requests =
      (s.nagDispatch adapterId kbuf argSize).2.requests := by
  unfold dispatchBuffer
  split <;> rename_i heq <;> rw [heq]
  split
  · rfl
  · split <;> rfl

/-- A call adds the request of the submission that it reaches. -/
theorem submitted_eq (s : NagSystem) (adapterId arg argSize : ℕ) :
    s.submitted adapterId arg argSize =
      s.requests ++ ((s.reached adapterId arg argSize).bind fun (gpu, kbuf, args) =>
        placed s.proc (s.mem.copied kbuf arg argSize) gpu args).toList := by
  unfold submitted sysNagDispatch reached buffer
  by_cases hnull : argSize = 0 ∨ arg = 0
  · rw [if_pos hnull, requests_nagDispatch, if_pos (.inl rfl), if_pos (by tauto)]
    rfl
  rw [if_neg hnull]
  cases hval : s.proc.validateUserRange arg argSize true with
  | false => simp
  | true =>
    obtain ⟨rest, hkm⟩ := s.snd_kmallocArg argSize
    generalize s.kmallocArg argSize = r at hkm
    obtain ⟨kbuf, q⟩ := r
    obtain rfl : q = _ := hkm
    obtain ⟨hsize, harg⟩ := not_or.mp hnull
    cases kbuf with
    | none => simp
    | some kbuf =>
      dsimp only
      rw [Process.copyFromUser_eq _ _ _ hsize]
      by_cases hread : s.proc.validateUserRange arg argSize false = false
      · simp [hread]
      by_cases hbacked : s.mem.Backed arg argSize ∧ s.mem.Backed kbuf argSize
      · have hdispatch := requests_nagDispatch
          { s with kmallocs := rest, mem := s.mem.copied kbuf arg argSize } adapterId kbuf argSize
        have hpass : ¬(arg = 0 ∨ argSize = 0 ∨ true = false ∨
            s.proc.validateUserRange arg argSize false = false ∨ ¬s.mem.Backed arg argSize) := by
          simp [harg, hsize, hread, hbacked.1]
        rw [if_neg hread, if_pos hbacked, if_neg hpass]
        refine (requests_dispatchBuffer _ _ _ _ _).trans (hdispatch.trans ?_)
        rw [filter_some_pos (by simpa using hbacked.2), bind_some]
        split
        · rfl
        · rw [bind_map]
          rfl
      · rw [if_neg hread, if_neg hbacked]
        by_cases harg' : s.mem.Backed arg argSize
        · have hkbuf : ¬s.mem.Backed kbuf argSize := fun h => hbacked ⟨harg', h⟩
          rw [filter_some_neg (by simpa using hkbuf), ite_self]
          simp
        · simp [harg']

/-! ## The memory of a request -/

section Request

variable {m : Vmm} {mem : Memory} {gpu : SubmitDevice} {args : NagSubmitArgs} {p : Process}

/-- The frames of a submission that got them were free. -/
theorem allocFrames_spec (hpmm : m.pmm.Inv) (hreq : (allocFrames m args).reqPhys ≠ 0)
    (hresp : (allocFrames m args).respPhys ≠ 0) :
    ∃ a b, (allocFrames m args).reqPhys = a * pageSize ∧ (allocFrames m args).respPhys = b * pageSize ∧
      a + pagesOf (totalBytes args) ≤ m.pmm.gTotalFrames ∧ b < m.pmm.gTotalFrames ∧
      a ∉ m.pmm.usedSet ∧ b ∉ m.pmm.usedSet := by
  rcases hpmm.pmmAllocFrames (pagesOf (totalBytes args)) with ⟨hnull, -⟩ | ⟨a, haddr, hle, hfree, hpost⟩
  · exact absurd hnull hreq
  have hpos := pos_of_pmmAllocFrames (m := m) hreq
  rcases (Vmm.pmmAllocFrame_spec (m := (pmmAllocFrames m (pagesOf (totalBytes args))).2)
    hpost.inv).result with ⟨hnull, -⟩ | ⟨-, hmod, hlt, hnot, -⟩
  · exact absurd hnull hresp
  refine ⟨a, _, haddr, (Nat.div_mul_cancel (Nat.dvd_of_mod_eq_zero hmod)).symm, hle,
    lt_of_lt_of_eq hlt hpost.total_eq, fun hused => ?_, fun hused => hnot ?_⟩
  · exact Bool.false_ne_true ((hfree a le_rfl (by omega)).symm.trans (Pmm.mem_usedSet.mp hused).2)
  · rw [show (pmmAllocFrames m (pagesOf (totalBytes args))).2.pmm.usedSet = _ from hpost.used_eq]
    exact Finset.mem_union_left _ hused

/-- Commands whose size wraps cannot be copied: their addresses are not all canonical. -/
theorem not_backed_of_wrap (mem : Memory) (a : ℕ) {n : ℕ}
    (hn : 2 ^ 64 ≤ sizeofVirtioGpuCmdSubmit3d + n) : ¬mem.Backed a n := by
  intro h
  have hcanon : ∀ i < n, Memory.Canonical (wrap64 (a + i)) := by
    intro i hi
    by_contra hnot
    exact h i hi (if_neg hnot)
  -- one of two addresses far from both ends and far from each other is in the range
  have hmid := hcanon ((2 ^ 63 + 2 ^ 64 - a % 2 ^ 64) % 2 ^ 64)
  have hlow := hcanon ((2 ^ 62 + 2 ^ 64 - a % 2 ^ 64) % 2 ^ 64)
  rw [sizeofVirtioGpuCmdSubmit3d] at hn
  rw [Memory.Canonical, wrap64] at hmid hlow
  omega

/-- A request that does not wrap fits in its frames. -/
theorem Accepts.fits (h : Accepts m gpu args)
    (hlt : sizeofVirtioGpuCmdSubmit3d + args.commandSize < 2 ^ 64) :
    sizeofVirtioGpuCmdSubmit3d + args.commandSize ≤ pagesOf (totalBytes args) * pageSize := by
  have hpos : 0 < pagesOf (totalBytes args) := pos_of_pmmAllocFrames h.frames.1
  rw [totalBytes, wrap64_of_lt hlt] at *
  rw [pagesOf, wrap64, pageSize] at *
  omega

/-- The memory with the two headers. -/
def headed (f : SubmitFrames) (fence : ℕ) (args : NagSubmitArgs) (m : Memory) : Memory :=
  (m.put (f.respPhys + hhdmBase) (fun _ => 0) sizeofVirtioGpuCtrlHdr).put (f.reqPhys + hhdmBase)
    (fun i => (submitHeader fence args).getD i 0) sizeofVirtioGpuCmdSubmit3d

@[simp] theorem frameOf_headed (f : SubmitFrames) (fence : ℕ) (args : NagSubmitArgs) (m : Memory) :
    (headed f fence args m).frameOf = m.frameOf := by
  rw [headed, Memory.frameOf_put, Memory.frameOf_put]

/-- The memory with the first `n` bytes of the commands as well. -/
def filled (f : SubmitFrames) (fence : ℕ) (args : NagSubmitArgs) (n : ℕ) (m : Memory) : Memory :=
  (headed f fence args m).copied (f.reqPhys + hhdmBase + sizeofVirtioGpuCmdSubmit3d) args.commands n

/-- Either way the commands are copied by `memcpy`. -/
theorem copyCommands_eq (p : Process) (dst : ℕ) (mem : Memory) (h : args.commandSize ≠ 0) :
    copyCommands p dst args mem = mem.memcpy dst args.commands args.commandSize := by
  unfold copyCommands Process.copyFromUser
  cases p.validateUserRange args.commands args.commandSize false with
  | true =>
    simp only [if_neg h, Bool.true_eq_false, if_false, Option.map_map]
    exact Option.map_id'
  | false => rfl

theorem wrap32_totalBytes_le (args : NagSubmitArgs) :
    wrap32 (totalBytes args) ≤ sizeofVirtioGpuCmdSubmit3d + args.commandSize :=
  (Nat.mod_le _ _).trans (wrap64_le _)

/-- The frames hold the headers, and the commands where they can be copied. -/
theorem Accepts.room (h : Accepts m gpu args) (hpmm : m.pmm.Inv) (mem : Memory) :
    (allocFrames m args).respPhys + sizeofVirtioGpuCtrlHdr ≤ m.pmm.gTotalFrames * pageSize ∧
      (allocFrames m args).reqPhys + sizeofVirtioGpuCmdSubmit3d ≤ m.pmm.gTotalFrames * pageSize ∧
      (mem.Backed args.commands args.commandSize → (allocFrames m args).reqPhys +
        sizeofVirtioGpuCmdSubmit3d + args.commandSize ≤ m.pmm.gTotalFrames * pageSize) := by
  obtain ⟨a, b, hreq, hresp, hle, hlt, -⟩ := allocFrames_spec hpmm h.frames.1 h.frames.2
  have hpos : 0 < pagesOf (totalBytes args) := pos_of_pmmAllocFrames h.frames.1
  rw [hreq, hresp]
  have hsizes : sizeofVirtioGpuCtrlHdr ≤ pageSize ∧ sizeofVirtioGpuCmdSubmit3d ≤ pageSize := by decide
  refine ⟨?_, ?_, fun hbacked => ?_⟩
  · rw [pageSize] at *
    omega
  · rw [pageSize] at *
    omega
  · have hfits := h.fits (Nat.lt_of_not_le fun hwrap => not_backed_of_wrap mem _ hwrap hbacked)
    rw [pageSize] at *
    omega

/-- Physical address `x` was written by a submission before byte `i` of its commands is copied. -/
def Written (m : Vmm) (args : NagSubmitArgs) (i x : ℕ) : Prop :=
  let f := allocFrames m args
  (f.respPhys ≤ x ∧ x < f.respPhys + sizeofVirtioGpuCtrlHdr) ∨
    (f.reqPhys ≤ x ∧ x < f.reqPhys + sizeofVirtioGpuCmdSubmit3d + i)

instance (m : Vmm) (args : NagSubmitArgs) (i x : ℕ) : Decidable (Written m args i x) :=
  inferInstanceAs (Decidable (_ ∨ _))

section Accepted

variable {fence i n : ℕ} (hpmm : p.vmm.pmm.Inv) (htotal : p.vmm.pmm.gTotalFrames ≤ 2 ^ 35)
  (hmap : mem.DirectMap p.vmm.pmm.gTotalFrames) (h : Accepts p.vmm gpu args)
include hpmm htotal hmap h

theorem fillHeaders_eq : fillHeaders (allocFrames p.vmm args) fence args mem =
    some (headed (allocFrames p.vmm args) fence args mem) := by
  obtain ⟨hresp, hreq, -⟩ := h.room hpmm mem
  rw [fillHeaders, Memory.store, if_pos (hmap.backed htotal hresp), bind_some, Memory.store,
    if_pos ((Memory.backed_congr Memory.frameOf_put).mpr (hmap.backed htotal hreq)), headed]

theorem loc_response (hi : i < sizeofVirtioGpuCtrlHdr) :
    mem.loc ((allocFrames p.vmm args).respPhys + hhdmBase) i = (allocFrames p.vmm args).respPhys + i :=
  hmap.loc_eq htotal (by have := (h.room hpmm mem).1; omega)

theorem loc_header (hi : i < sizeofVirtioGpuCmdSubmit3d) :
    mem.loc ((allocFrames p.vmm args).reqPhys + hhdmBase) i = (allocFrames p.vmm args).reqPhys + i :=
  hmap.loc_eq htotal (by have := (h.room hpmm mem).2.1; omega)

/-- Outside the headers nothing has changed. -/
theorem ram_headed {x : ℕ}
    (hresp : ¬((allocFrames p.vmm args).respPhys ≤ x ∧
      x < (allocFrames p.vmm args).respPhys + sizeofVirtioGpuCtrlHdr))
    (hreq : ¬((allocFrames p.vmm args).reqPhys ≤ x ∧
      x < (allocFrames p.vmm args).reqPhys + sizeofVirtioGpuCmdSubmit3d)) :
    (headed (allocFrames p.vmm args) fence args mem).ram x = mem.ram x := by
  rw [headed, Memory.put_of_ne, Memory.put_of_ne]
  · intro i hi
    rw [loc_response hpmm htotal hmap h hi]
    omega
  · intro i hi
    rw [Memory.loc_congr Memory.frameOf_put, loc_header hpmm htotal hmap h hi]
    omega

/-- The request of a submission that nothing stops but the copy. -/
theorem placed_eq :
    placed p mem gpu args =
      if mem.Backed args.commands args.commandSize then
        some (request (allocFrames p.vmm args) args
          (filled (allocFrames p.vmm args) gpu.nextFenceId args args.commandSize mem))
      else none := by
  rw [placed, if_pos h, fillRequest, fillHeaders_eq hpmm htotal hmap h, bind_some,
    copyCommands_eq _ _ _ h.size.1, Memory.memcpy_eq]
  simp only [Memory.backed_congr (frameOf_headed _ _ _ _)]
  by_cases hbacked : mem.Backed args.commands args.commandSize
  · have hroom := (h.room hpmm mem).2.2 hbacked
    have hdst : mem.Backed
        ((allocFrames p.vmm args).reqPhys + hhdmBase + sizeofVirtioGpuCmdSubmit3d) args.commandSize := by
      rw [Nat.add_right_comm]
      exact hmap.backed htotal hroom
    rw [if_pos ⟨hbacked, hdst⟩, if_pos hbacked, map_some, filled]
  · rw [if_neg fun hb => hbacked hb.1, if_neg hbacked, map_none]

variable (hbacked : mem.Backed args.commands args.commandSize)
include hbacked

theorem loc_commands (hi : i < args.commandSize) :
    (headed (allocFrames p.vmm args) fence args mem).loc
        ((allocFrames p.vmm args).reqPhys + hhdmBase + sizeofVirtioGpuCmdSubmit3d) i =
      (allocFrames p.vmm args).reqPhys + sizeofVirtioGpuCmdSubmit3d + i := by
  have hroom := (h.room hpmm mem).2.2 hbacked
  rw [Memory.loc_congr (frameOf_headed _ _ _ _), Nat.add_right_comm]
  exact hmap.loc_eq htotal (by omega)

/-- The bytes behind the first `n` of the commands do not reach back. -/
theorem ram_filled (hi : i < sizeofVirtioGpuCmdSubmit3d + n) (hn : n ≤ args.commandSize) :
    (filled (allocFrames p.vmm args) fence args args.commandSize mem).ram
        ((allocFrames p.vmm args).reqPhys + i) =
      (filled (allocFrames p.vmm args) fence args n mem).ram ((allocFrames p.vmm args).reqPhys + i) := by
  obtain ⟨k, hk⟩ := Nat.exists_eq_add_of_le hn
  rw [filled, filled, hk, Memory.copied_add, Memory.copied_of_ne]
  intro j hj
  rw [Memory.loc_congr Memory.frameOf_copied, Memory.loc_add,
    loc_commands hpmm htotal hmap h hbacked (by omega)]
  omega

/-- Each byte of the commands is what was at its source when its turn came. -/
theorem ram_filled_commands (hi : i < args.commandSize) :
    (filled (allocFrames p.vmm args) fence args args.commandSize mem).ram
        ((allocFrames p.vmm args).reqPhys + sizeofVirtioGpuCmdSubmit3d + i) =
      (filled (allocFrames p.vmm args) fence args i mem).ram (mem.loc args.commands i) := by
  rw [filled, filled, ← loc_commands hpmm htotal hmap h hbacked hi, Memory.copied_loc _ hi,
    Memory.loc_congr (frameOf_headed _ _ _ _) args.commands]
  intro j hj hlt
  rw [loc_commands hpmm htotal hmap h hbacked hj, loc_commands hpmm htotal hmap h hbacked hi]
  omega

/-- What was written before lies in the response, in the header or in the commands that were copied. -/
theorem Written.located {x : ℕ} (hi : i ≤ args.commandSize) (hw : Written p.vmm args i x) (fence : ℕ) :
    (∃ j < sizeofVirtioGpuCtrlHdr, x = mem.loc ((allocFrames p.vmm args).respPhys + hhdmBase) j) ∨
      (∃ j < sizeofVirtioGpuCmdSubmit3d, x = mem.loc ((allocFrames p.vmm args).reqPhys + hhdmBase) j) ∨
      ∃ j < i, x = (headed (allocFrames p.vmm args) fence args mem).loc
        ((allocFrames p.vmm args).reqPhys + hhdmBase + sizeofVirtioGpuCmdSubmit3d) j := by
  rcases hw with ⟨hle, hlt⟩ | ⟨hle, hlt⟩
  · refine .inl ⟨_, Nat.sub_lt_left_of_lt_add hle hlt, ?_⟩
    rw [loc_response hpmm htotal hmap h (Nat.sub_lt_left_of_lt_add hle hlt), Nat.add_sub_cancel' hle]
  by_cases hhead : x < (allocFrames p.vmm args).reqPhys + sizeofVirtioGpuCmdSubmit3d
  · refine .inr (.inl ⟨_, Nat.sub_lt_left_of_lt_add hle hhead, ?_⟩)
    rw [loc_header hpmm htotal hmap h (Nat.sub_lt_left_of_lt_add hle hhead), Nat.add_sub_cancel' hle]
  · have hle := Nat.le_of_not_lt hhead
    refine .inr (.inr ⟨_, Nat.sub_lt_left_of_lt_add hle hlt, ?_⟩)
    rw [loc_commands hpmm htotal hmap h hbacked (by omega), Nat.add_sub_cancel' hle]

/-- Commands of which the device sees only what is known give the same request. -/
theorem request_congr {K : ℕ → Prop} {mem' : Memory} (hsame : mem.SameOn K mem')
    (hknown : ∀ i, sizeofVirtioGpuCmdSubmit3d + i < wrap32 (totalBytes args) →
      K (mem.loc args.commands i) ∨ Written p.vmm args i (mem.loc args.commands i)) :
    request (allocFrames p.vmm args) args
        (filled (allocFrames p.vmm args) fence args args.commandSize mem') =
      request (allocFrames p.vmm args) args
        (filled (allocFrames p.vmm args) fence args args.commandSize mem) := by
  have hmap' : mem'.DirectMap p.vmm.pmm.gTotalFrames := by
    rwa [Memory.DirectMap, hsame.frameOf_eq]
  have hbacked' := (Memory.backed_congr hsame.frameOf_eq).mpr hbacked
  have hle := wrap32_totalBytes_le args
  set n := wrap32 (totalBytes args) - sizeofVirtioGpuCmdSubmit3d with hn
  have hheaders := (hsame.put ((allocFrames p.vmm args).respPhys + hhdmBase) (fun _ => 0)
    sizeofVirtioGpuCtrlHdr).put ((allocFrames p.vmm args).reqPhys + hhdmBase)
      (fun i => (submitHeader fence args).getD i 0) sizeofVirtioGpuCmdSubmit3d
  rw [← headed, ← headed] at hheaders
  have hcopied : Memory.SameOn _ (Memory.copied _ ((allocFrames p.vmm args).reqPhys + hhdmBase +
      sizeofVirtioGpuCmdSubmit3d) args.commands n) _ := hheaders.copied ?_
  · refine map_congr_left fun i hi => ?_
    have hi := mem_range.mp hi
    rw [ram_filled hpmm htotal hmap' h hbacked' (n := n) (by omega) (by omega),
      ram_filled hpmm htotal hmap h hbacked (n := n) (by omega) (by omega)]
    refine hcopied.ram_eq _ ?_
    by_cases hhead : i < sizeofVirtioGpuCmdSubmit3d
    · refine .inl (.inr ⟨i, hhead, ?_⟩)
      rw [Memory.loc_congr Memory.frameOf_put, loc_header hpmm htotal hmap h hhead]
    · refine .inr ⟨i - sizeofVirtioGpuCmdSubmit3d, by omega, ?_⟩
      rw [loc_commands hpmm htotal hmap h hbacked (by omega)]
      omega
  · intro i hi
    rw [Memory.loc_congr (frameOf_headed _ _ _ _)]
    rcases hknown i (by omega) with hK | hw
    · exact .inl (.inl (.inl hK))
    rcases hw.located hpmm htotal hmap h hbacked (by omega) fence with hresp | ⟨j, hj, heq⟩ | hcommands
    · exact .inl (.inl (.inr hresp))
    · exact .inl (.inr ⟨j, hj, heq.trans (Memory.loc_congr Memory.frameOf_put _ _).symm⟩)
    · exact .inr hcommands

end Accepted

end Request

/-! ## Two memories -/

/-- What a call knows once its argument is in the buffer: what the process can read, and the buffer. -/
def Known (s : NagSystem) (argSize kbuf x : ℕ) : Prop :=
  s.proc.Sees s.mem x ∨ ∃ j < argSize, x = s.mem.loc kbuf j

/-- When the commands cannot give away anything: they cannot be copied, or all that the device sees of
them is known or was written before. -/
def Guarded (s : NagSystem) (argSize kbuf : ℕ) (args : NagSubmitArgs) : Prop :=
  s.mem.Backed args.commands args.commandSize →
    ∀ i, sizeofVirtioGpuCmdSubmit3d + i < wrap32 (totalBytes args) →
      s.Known argSize kbuf (s.mem.loc args.commands i) ∨
        Written s.proc.vmm args i (s.mem.loc args.commands i)

section TwoMemories

variable {s : NagSystem} {mem : Memory} {gpu : SubmitDevice} {args : NagSubmitArgs}
  {adapterId arg argSize kbuf : ℕ}

theorem buffer_congr (h : mem.frameOf = s.mem.frameOf) :
    ({ s with mem := mem } : NagSystem).buffer arg argSize = s.buffer arg argSize := by
  unfold buffer
  simp only [fst_kmallocArg, Memory.backed_congr h]

/-- Once the argument is copied, the buffer is known as well. -/
theorem sameOn_buffer (hok : s.proc.VmaListWf) (harg : arg < 2 ^ 64) (hargSize : argSize < 2 ^ 64)
    (hbuf : s.buffer arg argSize = some kbuf) (hsame : s.mem.SameOn (s.proc.Sees s.mem) mem) :
    (s.mem.copied kbuf arg argSize).SameOn (s.Known argSize kbuf) (mem.copied kbuf arg argSize) := by
  unfold buffer at hbuf
  split at hbuf
  · cases hbuf
  rename_i hpass
  simp only [not_or, Bool.not_eq_false, not_not] at hpass
  refine (hsame.copied fun i hi => .inl ?_).mono fun x hx => hx
  exact Process.sees_of_validateUserRange hok harg hargSize hpass.2.2.2.1 hpass.2.2.2.2 hi

/-- What a call reaches `virtioGpuSubmit` with does not depend on memory that the process cannot
read. -/
theorem reached_congr (hok : s.proc.VmaListWf) (harg : arg < 2 ^ 64) (hargSize : argSize < 2 ^ 64)
    (hsame : s.mem.SameOn (s.proc.Sees s.mem) mem) :
    ({ s with mem := mem } : NagSystem).reached adapterId arg argSize =
      s.reached adapterId arg argSize := by
  unfold reached
  rw [buffer_congr hsame.frameOf_eq]
  cases hbuf : s.buffer arg argSize with
  | none => rfl
  | some kbuf =>
    have hknown := sameOn_buffer hok harg hargSize hbuf hsame
    rw [bind_some, bind_some]
    split
    · rfl
    rename_i hsize
    rw [NagSubmitArgs.ofBytes_congr]
    · rfl
    · intro j hj
      rw [Memory.byte, Memory.byte, Memory.loc_congr hknown.frameOf_eq]
      exact hknown.ram_eq _ (.inr ⟨j, by omega, Memory.loc_congr Memory.frameOf_copied _ _⟩)

/-- Up to the submission a call is the same on memories that the process sees the same. -/
theorem submitted_of_sameOn (hok : s.proc.VmaListWf) (harg : arg < 2 ^ 64) (hargSize : argSize < 2 ^ 64)
    (hsame : s.mem.SameOn (s.proc.Sees s.mem) mem) :
    ({ s with mem := mem } : NagSystem).submitted adapterId arg argSize = s.requests ++
      ((s.reached adapterId arg argSize).bind fun (gpu, kbuf, args) =>
        placed s.proc (mem.copied kbuf arg argSize) gpu args).toList := by
  rw [submitted_eq, reached_congr hok harg hargSize hsame]

theorem buffer_of_reached (h : s.reached adapterId arg argSize = some (gpu, kbuf, args)) :
    s.buffer arg argSize = some kbuf := by
  obtain ⟨kbuf', hbuf, hrest⟩ := bind_eq_some_iff.mp h
  split at hrest
  · cases hrest
  obtain ⟨gpu', -, heq⟩ := map_eq_some_iff.mp hrest
  rw [hbuf]
  exact congrArg (fun r => some r.2.1) heq

section Reached

variable (hpmm : s.proc.vmm.pmm.Inv) (htotal : s.proc.vmm.pmm.gTotalFrames ≤ 2 ^ 35)
  (hmap : s.mem.DirectMap s.proc.vmm.pmm.gTotalFrames) (haccepts : Accepts s.proc.vmm gpu args)
include hpmm htotal hmap haccepts

/-- The request from a memory with the same pages. -/
theorem placed_copied (hmem : mem.frameOf = s.mem.frameOf) :
    placed s.proc (mem.copied kbuf arg argSize) gpu args =
      if s.mem.Backed args.commands args.commandSize then
        some (request (allocFrames s.proc.vmm args) args
          (filled (allocFrames s.proc.vmm args) gpu.nextFenceId args args.commandSize
            (mem.copied kbuf arg argSize)))
      else none := by
  have hframes : (mem.copied kbuf arg argSize).frameOf = s.mem.frameOf :=
    Memory.frameOf_copied.trans hmem
  rw [placed_eq hpmm htotal (by rwa [Memory.DirectMap, hframes]) haccepts]
  simp only [Memory.backed_congr hframes]

/-- Guarded commands give the same request where the process sees the same memory. -/
theorem Guarded.placed_eq (hok : s.proc.VmaListWf) (harg : arg < 2 ^ 64) (hargSize : argSize < 2 ^ 64)
    (hbuf : s.buffer arg argSize = some kbuf) (hguarded : s.Guarded argSize kbuf args)
    (hsame : s.mem.SameOn (s.proc.Sees s.mem) mem) :
    placed s.proc (mem.copied kbuf arg argSize) gpu args =
      placed s.proc (s.mem.copied kbuf arg argSize) gpu args := by
  have hframes : (s.mem.copied kbuf arg argSize).frameOf = s.mem.frameOf := Memory.frameOf_copied
  rw [placed_copied hpmm htotal hmap haccepts hsame.frameOf_eq,
    placed_copied hpmm htotal hmap haccepts rfl]
  split
  · rename_i hbacked
    refine congrArg some (request_congr hpmm htotal (by rwa [Memory.DirectMap, hframes]) haccepts
      ((Memory.backed_congr hframes).mpr hbacked) (sameOn_buffer hok harg hargSize hbuf hsame) ?_)
    simp only [Memory.loc_congr hframes]
    exact hguarded hbacked
  · rfl

/-- A byte of the commands that is neither known nor written before goes to the device as it is. -/
theorem getElem_request {i : ℕ} (hmem : mem.frameOf = s.mem.frameOf)
    (hbacked : s.mem.Backed args.commands args.commandSize)
    (hi : sizeofVirtioGpuCmdSubmit3d + i < wrap32 (totalBytes args))
    (hknown : ¬s.Known argSize kbuf (s.mem.loc args.commands i))
    (hwritten : ¬Written s.proc.vmm args i (s.mem.loc args.commands i)) (fence : ℕ) :
    (request (allocFrames s.proc.vmm args) args
      (filled (allocFrames s.proc.vmm args) fence args args.commandSize
        (mem.copied kbuf arg argSize)))[sizeofVirtioGpuCmdSubmit3d + i]? =
      some (mem.ram (s.mem.loc args.commands i)) := by
  have hframes : (mem.copied kbuf arg argSize).frameOf = s.mem.frameOf :=
    Memory.frameOf_copied.trans hmem
  have hmap' : (mem.copied kbuf arg argSize).DirectMap s.proc.vmm.pmm.gTotalFrames := by
    rwa [Memory.DirectMap, hframes]
  have hbacked' := (Memory.backed_congr hframes).mpr hbacked
  have hlt : i < args.commandSize := by
    have := wrap32_totalBytes_le args
    omega
  obtain ⟨hresp, hreq⟩ := not_or.mp hwritten
  rw [request, getElem?_map, getElem?_range hi, map_some, ← Nat.add_assoc,
    ram_filled_commands hpmm htotal hmap' haccepts hbacked' hlt, Memory.loc_congr hframes, filled,
    Memory.copied_of_ne, ram_headed hpmm htotal hmap' haccepts hresp (by omega), Memory.copied_of_ne]
  · exact fun j hj hx => hknown (.inr ⟨j, hj, hx.trans (Memory.loc_congr hmem _ _)⟩)
  · intro j hj hx
    rw [loc_commands hpmm htotal hmap' haccepts hbacked' (by omega)] at hx
    omega

end Reached

/-- Memory that the process cannot read stays out of the requests exactly when the commands of every
submission that goes through are guarded. -/
theorem submitted_eq_iff (s : NagSystem) (hok : s.proc.VmaListWf) (hpmm : s.proc.vmm.pmm.Inv)
    (htotal : s.proc.vmm.pmm.gTotalFrames ≤ 2 ^ 35)
    (hmap : s.mem.DirectMap s.proc.vmm.pmm.gTotalFrames) {adapterId arg argSize : ℕ}
    (harg : arg < 2 ^ 64) (hargSize : argSize < 2 ^ 64) :
    (∀ mem mem', s.mem.SameOn (s.proc.Sees s.mem) mem → s.mem.SameOn (s.proc.Sees s.mem) mem' →
        ({ s with mem := mem } : NagSystem).submitted adapterId arg argSize =
          ({ s with mem := mem' } : NagSystem).submitted adapterId arg argSize) ↔
      ∀ gpu kbuf args, s.reached adapterId arg argSize = some (gpu, kbuf, args) →
        Accepts s.proc.vmm gpu args → s.Guarded argSize kbuf args := by
  constructor
  · intro hall gpu kbuf args hreached haccepts hbacked i hi
    by_contra hknown
    obtain ⟨hknown, hwritten⟩ := not_or.mp hknown
    -- two memories that differ in that byte
    set x := s.mem.loc args.commands i with hx
    set mem : Memory := ⟨s.mem.frameOf, Function.update s.mem.ram x (s.mem.ram x + 1)⟩
    have hself : s.mem.SameOn (s.proc.Sees s.mem) s.mem := ⟨rfl, fun _ _ => rfl⟩
    have hsame : s.mem.SameOn (s.proc.Sees s.mem) mem := by
      refine ⟨rfl, fun y hy => Function.update_of_ne ?_ _ _⟩
      rintro rfl
      exact hknown (.inl hy)
    have heq := hall s.mem mem hself hsame
    rw [submitted_of_sameOn hok harg hargSize hself, submitted_of_sameOn hok harg hargSize hsame, hreached,
      bind_some, bind_some] at heq
    dsimp only at heq
    rw [placed_copied hpmm htotal hmap haccepts hself.frameOf_eq,
      placed_copied hpmm htotal hmap haccepts hsame.frameOf_eq, if_pos hbacked, if_pos hbacked] at heq
    have hbyte := congrArg (·[sizeofVirtioGpuCmdSubmit3d + i]?)
      (singleton_inj.mp (append_cancel_left heq))
    rw [getElem_request hpmm htotal hmap haccepts hself.frameOf_eq hbacked hi hknown hwritten,
      getElem_request hpmm htotal hmap haccepts hsame.frameOf_eq hbacked hi hknown hwritten, ← hx,
      show mem.ram x = s.mem.ram x + 1 from Function.update_self _ _ _] at hbyte
    exact absurd (Option.some.inj hbyte) (by simp)
  · intro hguarded mem mem' hmem hmem'
    rw [submitted_of_sameOn hok harg hargSize hmem, submitted_of_sameOn hok harg hargSize hmem']
    cases hreached : s.reached adapterId arg argSize with
    | none => rw [bind_none, bind_none]
    | some r =>
      obtain ⟨gpu, kbuf, args⟩ := r
      have hbuf := buffer_of_reached hreached
      rw [bind_some, bind_some]
      dsimp only
      by_cases haccepts : Accepts s.proc.vmm gpu args
      · have hguard := hguarded gpu kbuf args hreached haccepts
        rw [hguard.placed_eq hpmm htotal hmap haccepts hok harg hargSize hbuf hmem,
          hguard.placed_eq hpmm htotal hmap haccepts hok harg hargSize hbuf hmem']
      · rw [placed, placed, if_neg haccepts, if_neg haccepts]

end TwoMemories

/-! ## A small machine -/

/-- A process with a page that it may read and write and two that it may read. -/
def sampleProcess : Process := { Process.twoAreas with vmm := SpaceClient.smallSpace, pml4 := 0x101000 }

/-- The memory of this process: its pages are the frames 5 to 7, and the first holds `args`. -/
def sampleMemory (args : List UInt8) : Memory where
  frameOf n :=
    if 1 ≤ n ∧ n ≤ 3 then some (n + 4)
    else if hhdmBase / pageSize ≤ n ∧ n < hhdmBase / pageSize + SpaceClient.smallSpace.pmm.gTotalFrames then
      some (n - hhdmBase / pageSize)
    else none
  ram x := if 0x5000 ≤ x ∧ x < 0x5000 + args.length then args.getD (x - 0x5000) 0 else UInt8.ofNat x

/-- The process with a device that accepts every request. Its page starts with arguments for
`commandSize` bytes of commands at `commands`. -/
def sampleSystem (commands commandSize : ℕ) : NagSystem where
  proc := sampleProcess
  mem := sampleMemory (toLe 8 0 ++ toLe 8 commands ++ toLe 8 commandSize ++ toLe 8 0)
  stackBuf := hhdmBase + 0x4000
  kmallocs := []
  adapters := [some ⟨true, some ⟨64, 64, 1, 0⟩⟩]
  answers := [.ok]
  requests := []

theorem sampleSystem_ready (commands commandSize : ℕ) :
    (sampleSystem commands commandSize).proc.VmaListWf ∧
      (sampleSystem commands commandSize).proc.vmm.pmm.Inv ∧
      (sampleSystem commands commandSize).proc.vmm.pmm.gTotalFrames ≤ 2 ^ 35 ∧
      (sampleSystem commands commandSize).mem.DirectMap
        (sampleSystem commands commandSize).proc.vmm.pmm.gTotalFrames := by
  have hmap : ∀ total, total = SpaceClient.smallSpace.pmm.gTotalFrames →
      (sampleSystem commands commandSize).mem.DirectMap total := by
    rintro total htotal f hf
    have hbase : 4 ≤ hhdmBase / pageSize := by decide
    dsimp only [sampleSystem, sampleMemory]
    rw [← htotal]
    generalize hhdmBase / pageSize = base at hbase
    rw [if_neg (by omega), if_pos (by omega), Nat.add_sub_cancel_left]
  have hvmm : (sampleSystem commands commandSize).proc.vmm = SpaceClient.smallSpace := by
    simp only [sampleSystem, sampleProcess]
  rw [hvmm]
  exact ⟨Process.twoAreas_vmaListWf.inSpace _ _, SpaceClient.smallSpace_shared.1.pmm,
    by decide +kernel, hmap _ rfl⟩

theorem sampleSystem_reached : ∀ commands ∈ [0x1ff8, hhdmBase + 0x102018, hhdmBase + 0x100000],
    (sampleSystem commands 16).reached 0 0x1000 32 =
      some (⟨64, 64, 1, 0⟩, hhdmBase + 0x4000, ⟨0, commands, 16, 0⟩) := by
  decide +kernel

/-- Commands across both areas of the process, and commands that start in the header of the request and
so repeat its last bytes. -/
theorem submitted_eq_sample :
    (sampleSystem 0x1ff8 16).submitted 0 0x1000 32 =
        [submitHeader 1 ⟨0, 0x1ff8, 16, 0⟩ ++
          [0xf8, 0xf9, 0xfa, 0xfb, 0xfc, 0xfd, 0xfe, 0xff, 0, 1, 2, 3, 4, 5, 6, 7]] ∧
      (sampleSystem (hhdmBase + 0x102018) 16).submitted 0 0x1000 32 =
        [submitHeader 1 ⟨0, hhdmBase + 0x102018, 16, 0⟩ ++ toLe 8 16 ++ toLe 8 16] ∧
      ∀ commands ∈ [0x1ff8, hhdmBase + 0x102018], ∀ mem mem',
        (sampleSystem commands 16).mem.SameOn (sampleProcess.Sees (sampleSystem commands 16).mem) mem →
        (sampleSystem commands 16).mem.SameOn (sampleProcess.Sees (sampleSystem commands 16).mem) mem' →
        ({ sampleSystem commands 16 with mem := mem } : NagSystem).submitted 0 0x1000 32 =
          ({ sampleSystem commands 16 with mem := mem' } : NagSystem).submitted 0 0x1000 32 := by
  refine ⟨?_, ?_, fun commands hcommands => ?_⟩
  · rw [submitted_eq, sampleSystem_reached _ (.head _)]
    decide +kernel
  · rw [submitted_eq, sampleSystem_reached _ (.tail _ (.head _))]
    decide +kernel
  obtain ⟨hwf, hpmm, htotal, hmap⟩ := sampleSystem_ready commands 16
  refine (submitted_eq_iff (sampleSystem commands 16) hwf hpmm htotal hmap (by decide)
    (by decide)).mpr fun gpu kbuf args hreached _ _ i hi => ?_
  rw [sampleSystem_reached _ (mem_of_mem_dropLast hcommands)] at hreached
  obtain ⟨-, hrest⟩ := Prod.mk.inj (Option.some.inj hreached)
  obtain ⟨-, rfl⟩ := Prod.mk.inj hrest
  simp only [mem_cons, not_mem_nil, or_false] at hcommands
  rcases hcommands with rfl | rfl
  · have hread : ∀ i < 16, sampleProcess.Readable (0x1ff8 + i) ∧
        (sampleSystem 0x1ff8 16).mem.translate (0x1ff8 + i) =
          some ((sampleSystem 0x1ff8 16).mem.loc 0x1ff8 i) := by
      decide +kernel
    exact .inl (.inl ⟨_, hread i (Nat.lt_of_add_lt_add_left (n := 32) hi)⟩)
  · have hwritten : ∀ i < 16, Written sampleProcess.vmm ⟨0, hhdmBase + 0x102018, 16, 0⟩ i
        ((sampleSystem (hhdmBase + 0x102018) 16).mem.loc (hhdmBase + 0x102018) i) := by
      decide +kernel
    exact .inr (hwritten i (Nat.lt_of_add_lt_add_left (n := 32) hi))

/-- The process sees nothing but its own frames. -/
theorem sampleSystem_sees {commands commandSize x : ℕ}
    (h : sampleProcess.Sees (sampleSystem commands commandSize).mem x) : x < 0x8000 := by
  obtain ⟨a, ⟨A, hA, hin, -⟩, ha⟩ := h
  have hstop : ∀ A ∈ sampleProcess.areas sampleProcess.vmas, A.stop ≤ 0x4000 := by decide +kernel
  have hle := hstop A hA
  have hbase : 4 ≤ hhdmBase / pageSize := by decide
  rw [Memory.translate] at ha
  split at ha
  · obtain ⟨f, hf, rfl⟩ := map_eq_some_iff.mp ha
    dsimp only [sampleSystem, sampleMemory] at hf
    rw [pageSize] at *
    split_ifs at hf
    · obtain rfl := Option.some.inj hf
      omega
    · omega
  · cases ha

/-- Commands in the kernel's map of physical memory: the byte there goes to the device, and a process
that cannot read it does not see the difference. -/
theorem submitted_kernel_byte :
    (sampleSystem (hhdmBase + 0x100000) 16).proc.VmaListWf ∧
      (sampleSystem (hhdmBase + 0x100000) 16).mem.SameOn
        (sampleProcess.Sees (sampleSystem (hhdmBase + 0x100000) 16).mem)
        ((sampleSystem (hhdmBase + 0x100000) 16).mem.put (hhdmBase + 0x100000) (fun _ => 0x2a) 1) ∧
      ((sampleSystem (hhdmBase + 0x100000) 16).submitted 0 0x1000 32).map (·.getD 32 0) = [0] ∧
      (({ sampleSystem (hhdmBase + 0x100000) 16 with
          mem := (sampleSystem (hhdmBase + 0x100000) 16).mem.put (hhdmBase + 0x100000)
            (fun _ => 0x2a) 1 } : NagSystem).submitted 0 0x1000 32).map (·.getD 32 0) = [0x2a] := by
  have hreached := sampleSystem_reached _ (.tail _ (.tail _ (.head _)))
  obtain ⟨hwf, -⟩ := sampleSystem_ready (hhdmBase + 0x100000) 16
  have hsame : (sampleSystem (hhdmBase + 0x100000) 16).mem.SameOn
      (sampleProcess.Sees (sampleSystem (hhdmBase + 0x100000) 16).mem)
      ((sampleSystem (hhdmBase + 0x100000) 16).mem.put (hhdmBase + 0x100000) (fun _ => 0x2a) 1) := by
    refine ⟨rfl, fun x hx => Memory.put_of_ne fun i hi heq => ?_⟩
    obtain rfl : i = 0 := by omega
    have hloc : (sampleSystem (hhdmBase + 0x100000) 16).mem.loc (hhdmBase + 0x100000) 0 = 0x100000 := by
      decide +kernel
    have hlt := sampleSystem_sees hx
    omega
  refine ⟨hwf, hsame, ?_, ?_⟩
  · rw [submitted_eq, hreached]
    decide +kernel
  · rw [submitted_eq, reached_congr hwf (by decide) (by decide) hsame, hreached]
    decide +kernel

end NagSystem

end NovaOS.Drivers
