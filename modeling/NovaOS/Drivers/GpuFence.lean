import NovaOS.Drivers.GpuControl

/-!
# Fences

Reference: `drivers/virtiogpu/submit.c`.

`virtioGpuSubmit` and `virtioGpuTransfer` of several threads, cut where other threads can run: a call
takes the next fence, makes its request under the lock of the control queue, and records the fence as
completed under the lock of the fences. Only the highest recorded fence is kept, so
`virtioGpuWaitFence` takes every command with a lower fence for completed.

A wait is right in every state of a run exactly when each call that raises the highest fence finds the
commands below its own fence completed.
-/

namespace NovaOS.Drivers

open NovaOS.Lib NovaOS.Mem List Option

/-- `sizeof(VirtioGpuTransferHost3d)`. -/
def sizeofVirtioGpuTransferHost3d : ℕ := 72

/-- A call with a fence: `virtioGpuSubmit` has filled its own buffers, `virtioGpuTransfer` goes through
`virtioGpuSendControlCmd`. -/
inductive FenceKind where
  | submit (m : GpuMemory)
  | transfer

/-- How far a call has come. `request` is the number of its request on the control queue, if there was
room for it. -/
inductive FenceStage where
  | assigned
  | executed (request : Option ℕ) (ret : ℤ) (type : ℕ)
  | ended (request : Option ℕ)

structure FenceCall where
  fence : ℕ
  kind : FenceKind
  stage : FenceStage

/-- The number of the call's request. -/
def FenceCall.request (c : FenceCall) : Option ℕ :=
  match c.stage with
  | .assigned => none
  | .executed request _ _ => request
  | .ended request => request

structure GpuFences where
  gpu : GpuControl
  nextFenceId : ℕ
  lastCompletedFence : ℕ
  calls : List FenceCall

namespace GpuFences

def create (queueSize : ℕ) (ctrlDmaPhys : Option ℕ) : GpuFences :=
  ⟨.create queueSize ctrlDmaPhys, 1, 0, []⟩

/-- `gpu->nextFenceId++` for a new call. -/
def assign (s : GpuFences) (kind : FenceKind) : GpuFences :=
  { s with
    nextFenceId := wrap64 (s.nextFenceId + 1)
    calls := s.calls ++ [⟨s.nextFenceId, kind, .assigned⟩] }

/-- `virtioGpuSubmit` up to its fence. -/
def beginSubmit (s : GpuFences) (commands commandSize : ℕ) (frames : Option ℕ × Option ℕ) : GpuFences :=
  match GpuControl.submitMemory commands commandSize frames with
  | .error _ => s
  | .ok m => { s with gpu := s.gpu.fill m }.assign (.submit m)

/-- `virtioGpuTransfer` up to its fence. -/
def beginTransfer (s : GpuFences) (found : Bool) : GpuFences :=
  if found then s.assign .transfer else s

/-- The number of the request that was put on the queue between two states, if there was one. -/
def newRequest (g g' : GpuControl) : Option ℕ :=
  if g.link.sent.length < g'.link.sent.length then some g.link.sent.length else none

/-- Call `j` moves on to another stage. -/
def setStage (s : GpuFences) (j : ℕ) (c : FenceCall) (stage : FenceStage) : GpuFences :=
  { s with calls := s.calls.set j { c with stage := stage } }

/-- The part of call `j` under the lock of the control queue. -/
def execute (s : GpuFences) (j : ℕ) (frames : Option ℕ × Option ℕ)
    (turns : List (List VirtqLink.Event)) : Option GpuFences :=
  match s.calls[j]? with
  | none => some s
  | some c =>
    match c.stage with
    | .assigned =>
      match c.kind with
      | .submit m =>
        (s.gpu.exchange m turns).map fun (ret, g) =>
          { s with gpu := g }.setStage j c (.executed (newRequest s.gpu g) ret 0)
      | .transfer =>
        (s.gpu.virtioGpuSendControlCmd sizeofVirtioGpuTransferHost3d sizeofVirtioGpuCtrlHdr
          frames turns).map fun o =>
          { s with gpu := o.gpu }.setStage j c (.executed (newRequest s.gpu o.gpu) o.ret o.type)
    | _ => some s

/-- The type of the response that call `c` looks at. -/
def typeOf (s : GpuFences) (c : FenceCall) (type : ℕ) : ℕ :=
  match c.kind with
  | .submit m => s.gpu.respType m.resp.physAddr
  | .transfer => type

/-- The end of call `j`. -/
def record (s : GpuFences) (j : ℕ) : GpuFences :=
  match s.calls[j]? with
  | none => s
  | some c =>
    match c.stage with
    | .executed request ret type =>
      if ret = 0 ∧ s.typeOf c type = virtioGpuRespOkNodata ∧ s.lastCompletedFence < c.fence then
        { s with lastCompletedFence := c.fence }.setStage j c (.ended request)
      else s.setStage j c (.ended request)
    | _ => s

/-- What the threads and the device do. -/
inductive Op where
  | beginSubmit (commands commandSize : ℕ) (frames : Option ℕ × Option ℕ)
  | beginTransfer (found : Bool)
  | execute (j : ℕ) (frames : Option ℕ × Option ℕ) (turns : List (List VirtqLink.Event))
  | record (j : ℕ)
  | device (es : List VirtqLink.Event)

def step (s : GpuFences) : Op → Option GpuFences
  | .beginSubmit commands commandSize frames => some (s.beginSubmit commands commandSize frames)
  | .beginTransfer found => some (s.beginTransfer found)
  | .execute j frames turns => s.execute j frames turns
  | .record j => some (s.record j)
  | .device es => some { s with gpu := s.gpu.device es }

def run (s : GpuFences) (ops : List Op) : Option GpuFences := ops.foldlM step s

/-- `virtioGpuWaitFence`, which gives up after the last of `turns`; the others go on between two tests. -/
def virtioGpuWaitFence (fenceId : ℕ) : (turns : List (List Op)) → GpuFences → Option (ℤ × GpuFences)
  | [], s => some (if fenceId ≤ s.lastCompletedFence then 0 else -1, s)
  | turn :: turns, s =>
    if fenceId ≤ s.lastCompletedFence then some (0, s)
    else (s.run turn).bind (virtioGpuWaitFence fenceId turns)

/-- The device has completed the command of the call with success. -/
def Completed (s : GpuFences) (c : FenceCall) : Prop :=
  ∃ n, c.request = some n ∧ (n, virtioGpuRespOkNodata) ∈ s.gpu.link.returned

/-- Every command whose fence counts as completed has been completed. -/
def Sound (s : GpuFences) : Prop := ∀ c ∈ s.calls, c.fence ≤ s.lastCompletedFence → s.Completed c

instance (s : GpuFences) (c : FenceCall) : Decidable (s.Completed c) :=
  decidable_of_iff (∃ n ∈ c.request, (n, virtioGpuRespOkNodata) ∈ s.gpu.link.returned) Iff.rfl

instance (s : GpuFences) : Decidable s.Sound :=
  inferInstanceAs (Decidable (∀ c ∈ s.calls, c.fence ≤ s.lastCompletedFence → s.Completed c))

/-- A call that records its fence finds the commands between the highest recorded fence and its own
completed, its own included; a new fence is above the highest recorded one. -/
def Meets (s : GpuFences) : Op → Prop
  | .beginSubmit commands commandSize frames =>
    (GpuControl.submitMemory commands commandSize frames).isOk →
      s.lastCompletedFence < s.nextFenceId
  | .beginTransfer found => found = true → s.lastCompletedFence < s.nextFenceId
  | .record j => ∀ c request ret type, s.calls[j]? = some c → c.stage = .executed request ret type →
      ret = 0 → s.typeOf c type = virtioGpuRespOkNodata →
        ∀ c' ∈ s.calls, s.lastCompletedFence < c'.fence → c'.fence ≤ c.fence → s.Completed c'
  | .execute _ _ _ => True
  | .device _ => True

/-- Every step of the run meets the condition. -/
def AllMeet : GpuFences → List Op → Prop
  | _, [] => True
  | s, op :: ops => s.Meets op ∧ ∀ s', s.step op = some s' → AllMeet s' ops

/-! ## One step -/

section Step

variable {s s' : GpuFences}

/-- The control queue keeps its invariant. -/
def Inv (s : GpuFences) : Prop := ∃ free flying, s.gpu.link.Inv free flying

variable {c : FenceCall}

theorem Completed.mono (h : s.Completed c) (hle : s.gpu.link.returned <+: s'.gpu.link.returned) :
    s'.Completed c := by
  obtain ⟨n, hn, hmem⟩ := h
  exact ⟨n, hn, hle.subset hmem⟩

/-- What a step keeps: the control queue's invariant and the answers of the device. -/
structure Keeps (s s' : GpuFences) : Prop where
  inv : s'.Inv
  returned_initial : s.gpu.link.returned <+: s'.gpu.link.returned

/-- The part under the lock returns, and only the stage of the call and the queue change. -/
theorem execute_cases (h : s.Inv) (j : ℕ) (frames : Option ℕ × Option ℕ)
    (turns : List (List VirtqLink.Event)) :
    s.execute j frames turns = some s ∨
      ∃ c g stage, s.calls[j]? = some c ∧ c.stage = .assigned ∧ Keeps s { s with gpu := g } ∧
        s.execute j frames turns = some ({ s with gpu := g }.setStage j c stage) := by
  obtain ⟨free, flying, hinv⟩ := h
  unfold execute
  cases hc : s.calls[j]? with
  | none => exact .inl rfl
  | some c =>
    dsimp only
    cases hstage : c.stage with
    | executed request ret type => exact .inl rfl
    | ended request => exact .inl rfl
    | assigned =>
      cases hkind : c.kind with
      | submit m =>
        obtain ⟨ret, g, free', flying', hexchange, hinv', hprefix⟩ :=
          GpuControl.exchange_total hinv m turns
        refine .inr ⟨c, g, .executed (newRequest s.gpu g) ret 0, rfl, hstage,
          ⟨⟨free', flying', hinv'⟩, hprefix⟩, ?_⟩
        exact congrArg (Option.map _) hexchange
      | transfer =>
        obtain ⟨o, free', flying', htransact, hinv', hprefix⟩ :=
          GpuControl.transact_total hinv (s.gpu.controlMemory sizeofVirtioGpuTransferHost3d
            sizeofVirtioGpuCtrlHdr frames) turns
        refine .inr ⟨c, o.gpu, .executed (newRequest s.gpu o.gpu) o.ret o.type, rfl, hstage,
          ⟨⟨free', flying', hinv'⟩, hprefix⟩, ?_⟩
        exact congrArg (Option.map _) htransact

/-- A new call is not completed, so its fence must be above the highest recorded one. -/
theorem sound_assign_iff (h : s.Sound) (kind : FenceKind) :
    (s.assign kind).Sound ↔ s.lastCompletedFence < s.nextFenceId := by
  constructor
  · intro hsound
    by_contra hle
    obtain ⟨n, hn, -⟩ := hsound ⟨s.nextFenceId, kind, .assigned⟩
      (mem_append_right _ (mem_singleton.mpr rfl)) (not_lt.mp hle)
    exact absurd hn (by simp [FenceCall.request])
  · intro hlt c hc hle
    rcases mem_append.mp hc with hold | hnew
    · exact h c hold hle
    · obtain rfl := mem_singleton.mp hnew
      exact absurd hle (not_le.mpr hlt)

variable {j : ℕ}

/-- A call that has not made its request has no answer, so its fence is not recorded. -/
theorem Sound.execute {g : GpuControl} (h : s.Sound) (hc : s.calls[j]? = some c)
    (hstage : c.stage = .assigned) (hkeeps : Keeps s { s with gpu := g }) (stage : FenceStage) :
    ({ s with gpu := g }.setStage j c stage).Sound := by
  intro c' hc' hle
  rcases mem_or_eq_of_mem_set hc' with hold | rfl
  · exact (h c' hold hle).mono hkeeps.returned_initial
  · obtain ⟨n, hn, -⟩ := h c (mem_of_getElem? hc) hle
    exact absurd hn (by simp [FenceCall.request, hstage])

/-- Ending a call changes neither its fence nor its request. -/
theorem forall_calls_setStage {P : ℕ → Option ℕ → Prop} {stage : FenceStage}
    (hc : s.calls[j]? = some c)
    (hrequest : ({ c with stage := stage } : FenceCall).request = c.request) :
    (∀ c' ∈ (s.setStage j c stage).calls, P c'.fence c'.request) ↔
      ∀ c' ∈ s.calls, P c'.fence c'.request := by
  obtain ⟨hj, rfl⟩ := List.getElem?_eq_some_iff.mp hc
  constructor
  · intro h c' hc'
    obtain ⟨i, hi, rfl⟩ := mem_iff_getElem.mp hc'
    by_cases hij : i = j
    · subst hij
      have := h { s.calls[i] with stage := stage } (mem_set hj _)
      rwa [hrequest] at this
    · refine h _ (mem_iff_getElem.mpr ⟨i, by rwa [setStage, length_set], ?_⟩)
      exact getElem_set_ne (Ne.symm hij) _
  · intro h c' hc'
    rcases mem_or_eq_of_mem_set hc' with hold | rfl
    · exact h c' hold
    · rw [hrequest]
      exact h _ (getElem_mem hj)

/-- A highest fence and the completed requests fit the calls. -/
def SoundAt (s : GpuFences) (last : ℕ) : Prop := ∀ c ∈ s.calls, c.fence ≤ last → s.Completed c

/-- Raising the highest fence is right exactly when the commands in between are completed. -/
theorem soundAt_iff (h : s.Sound) (last : ℕ) :
    s.SoundAt last ↔ ∀ c ∈ s.calls, s.lastCompletedFence < c.fence → c.fence ≤ last → s.Completed c := by
  constructor
  · exact fun hsound c hc _ hle => hsound c hc hle
  · intro hbetween c hc hle
    rcases lt_or_ge s.lastCompletedFence c.fence with habove | hbelow
    · exact hbetween c hc habove hle
    · exact h c hc hbelow

theorem record_gpu (s : GpuFences) (j : ℕ) : (s.record j).gpu = s.gpu := by
  unfold record
  split
  · rfl
  · split
    · split <;> rfl
    · rfl

/-- The end of a call keeps the waits right exactly when the call meets the condition. -/
theorem sound_record_iff (h : s.Sound) (j : ℕ) : (s.record j).Sound ↔ s.Meets (.record j) := by
  rw [record, Meets]
  cases hc : s.calls[j]? with
  | none =>
    refine ⟨fun _ c _ _ _ heq => ?_, fun _ => h⟩
    cases heq
  | some c =>
    dsimp only
    cases hstage : c.stage with
    | assigned | ended request =>
      refine ⟨fun _ _ _ _ _ heq hst => ?_, fun _ => h⟩
      cases heq
      exact nomatch hstage.symm.trans hst
    | executed request ret type =>
      have hrequest : ({ c with stage := .ended request } : FenceCall).request = c.request := by
        rw [FenceCall.request, FenceCall.request, hstage]
      have hset (last : ℕ) : (SoundAt (s.setStage j c (.ended request)) last) ↔ s.SoundAt last :=
        forall_calls_setStage
          (P := fun fence request => fence ≤ last →
            ∃ n, request = some n ∧ (n, virtioGpuRespOkNodata) ∈ s.gpu.link.returned) hc hrequest
      dsimp only
      split
      · rename_i hok
        refine (hset c.fence).trans ((soundAt_iff h _).trans ⟨fun hall _ _ _ _ heq _ _ _ => ?_,
          fun hall => hall c request ret type rfl hstage hok.1 hok.2.1⟩)
        cases heq
        exact hall
      · rename_i hnot
        refine ⟨fun _ _ _ _ _ heq hst hret htype c' hc' hlt hle => ?_, fun _ => (hset _).mpr h⟩
        cases heq
        cases hstage.symm.trans hst
        exact absurd ⟨hret, htype, hlt.trans_le hle⟩ hnot

/-- Every step returns; it keeps the waits right exactly when it meets the condition. -/
theorem step_spec (h : s.Inv) (hsound : s.Sound) (op : Op) :
    ∃ s', s.step op = some s' ∧ s'.Inv ∧ (s'.Sound ↔ s.Meets op) := by
  cases op with
  | beginSubmit commands commandSize frames =>
    rw [step, beginSubmit, Meets]
    cases GpuControl.submitMemory commands commandSize frames with
    | error freed => exact ⟨s, rfl, h, fun _ hok => absurd hok Bool.false_ne_true, fun _ => hsound⟩
    | ok m =>
      refine ⟨_, rfl, h, (sound_assign_iff (s := { s with gpu := s.gpu.fill m }) hsound _).trans ?_⟩
      exact ⟨fun hlt _ => hlt, fun hlt => hlt rfl⟩
  | beginTransfer found =>
    cases found with
    | false => exact ⟨s, rfl, h, fun _ hfound => absurd hfound (by decide), fun _ => hsound⟩
    | true =>
      refine ⟨_, rfl, h, (sound_assign_iff hsound _).trans ?_⟩
      exact ⟨fun hlt _ => hlt, fun hlt => hlt rfl⟩
  | execute j frames turns =>
    rcases execute_cases h j frames turns with heq | ⟨c, g, stage, hc, hstage, hkeeps, heq⟩
    · exact ⟨s, heq, h, fun _ => trivial, fun _ => hsound⟩
    · exact ⟨_, heq, hkeeps.inv, fun _ => trivial, fun _ => hsound.execute hc hstage hkeeps stage⟩
  | record j =>
    have hinv : (s.record j).Inv := by
      rw [Inv, record_gpu]
      exact h
    exact ⟨_, rfl, hinv, sound_record_iff hsound j⟩
  | device es =>
    obtain ⟨free, flying, hinv⟩ := h
    refine ⟨_, rfl, ⟨free, flying, hinv.events es⟩, fun _ => trivial, fun _ c hc hle => ?_⟩
    exact (hsound c hc hle).mono (VirtqLink.later_events s.gpu.link es).1.returned_initial

end Step

/-! ## Waiting -/

section Wait

variable {s s' : GpuFences}

/-- All states of a run from a sound one are sound exactly when every step meets the condition. -/
theorem allMeet_iff (h : s.Inv) (hsound : s.Sound) (ops : List Op) :
    AllMeet s ops ↔ ∀ pre s', pre <+: ops → s.run pre = some s' → s'.Sound := by
  induction ops generalizing s with
  | nil =>
    refine ⟨fun _ pre s' hpre hrun => ?_, fun _ => trivial⟩
    rw [prefix_nil.mp hpre] at hrun
    exact some.inj hrun ▸ hsound
  | cons op ops ih =>
    obtain ⟨s1, hstep, hinv1, hiff⟩ := step_spec h hsound op
    constructor
    · rintro ⟨hmeets, hrest⟩ pre s' hpre hrun
      have hsound1 := hiff.mpr hmeets
      cases pre with
      | nil => exact some.inj hrun ▸ hsound
      | cons op' pre =>
        obtain ⟨rfl, hpre'⟩ := cons_prefix_cons.mp hpre
        rw [run, foldlM_cons, hstep] at hrun
        exact (ih hinv1 hsound1).mp (hrest s1 hstep) pre s' hpre' hrun
    · intro hall
      have hsound1 : s1.Sound := by
        refine hall [op] s1 ⟨ops, rfl⟩ ?_
        rw [run, foldlM_cons, hstep]
        rfl
      refine ⟨hiff.mp hsound1, fun s2 hstep2 => ?_⟩
      obtain rfl : s1 = s2 := mem_unique hstep hstep2
      refine (ih hinv1 hsound1).mpr fun pre s' hpre hrun => ?_
      refine hall (op :: pre) s' (cons_prefix_cons.mpr ⟨rfl, hpre⟩) ?_
      rw [run, foldlM_cons, hstep]
      exact hrun

/-- A wait that returns `0` has found the fence recorded in a state of the run. -/
theorem waitFence_zero {fenceId : ℕ} {turns : List (List Op)}
    (h : virtioGpuWaitFence fenceId turns s = some (0, s')) :
    fenceId ≤ s'.lastCompletedFence ∧ ∃ pre, pre <+: turns.flatten ∧ s.run pre = some s' := by
  induction turns generalizing s with
  | nil =>
    obtain ⟨hret, rfl⟩ := Prod.mk.inj (some.inj h)
    refine ⟨?_, [], prefix_refl _, rfl⟩
    by_contra hlt
    rw [if_neg hlt] at hret
    cases hret
  | cons turn turns ih =>
    rw [virtioGpuWaitFence] at h
    split at h
    · obtain ⟨-, rfl⟩ := Prod.mk.inj (some.inj h)
      exact ⟨by assumption, [], nil_prefix, rfl⟩
    · obtain ⟨s1, hrun, hwait⟩ := bind_eq_some_iff.mp h
      obtain ⟨hle, pre, hpre, hrun'⟩ := ih hwait
      refine ⟨hle, turn ++ pre, ?_, ?_⟩
      · exact (prefix_append_right_inj turn).mpr hpre
      · rw [run, foldlM_append]
        exact bind_eq_some_iff.mpr ⟨s1, hrun, hrun'⟩

end Wait

/-- A wait for a fence is right at every point of a run exactly when every step of the run meets the
condition. -/
theorem waitFence_completed_iff {k : ℕ} (hk : k ≤ 15) (ctrlDmaPhys : Option ℕ) (ops : List Op) :
    (∀ pre turns s s' fenceId, pre ++ turns.flatten <+: ops →
      (create (2 ^ k) ctrlDmaPhys).run pre = some s →
      virtioGpuWaitFence fenceId turns s = some (0, s') →
        ∀ c ∈ s'.calls, c.fence = fenceId → s'.Completed c) ↔
      AllMeet (create (2 ^ k) ctrlDmaPhys) ops := by
  have hinv : (create (2 ^ k) ctrlDmaPhys).Inv := ⟨_, _, VirtqLink.inv_create hk⟩
  rw [allMeet_iff hinv fun _ hc => nomatch hc]
  constructor
  · intro hwait pre s hpre hrun c hc hle
    refine hwait pre [] s s c.fence (by rwa [flatten_nil, append_nil]) hrun ?_ c hc rfl
    rw [virtioGpuWaitFence, if_pos hle]
  · intro hall pre turns s s' fenceId hpre hrun hwait c hc hfence
    obtain ⟨hle, mid, hmid, hrun'⟩ := waitFence_zero hwait
    refine hall (pre ++ mid) s' ?_ ?_ c hc (hfence ▸ hle)
    · exact ((prefix_append_right_inj pre).mpr hmid).trans hpre
    · rw [run, foldlM_append]
      exact bind_eq_some_iff.mpr ⟨s, hrun, hrun'⟩

/-- A submission and two transfers, which the device completes in their order. -/
def inOrder : List Op :=
  [.beginSubmit 0x1000 8 (some 0x8000, some 0x9000), .beginTransfer true,
    .execute 0 (none, none) [[.fetch, .finish 0 virtioGpuRespOkNodata]], .record 0,
    .execute 1 (none, none) [[], [.fetch, .finish 1 virtioGpuRespOkNodata]], .record 1,
    .beginTransfer true, .execute 2 (none, none) [[.fetch, .finish 2 virtioGpuRespOkNodata]], .record 2]

theorem inOrder_sound : ∀ pre ∈ inOrder.inits,
    ((create (2 ^ 2) (some 0x5000)).run pre).all (fun s => decide s.Sound) = true := by decide +kernel

/-- At every point of the run a wait that returns `0` finds the command completed. -/
theorem waitFence_completed_iff_inOrder :
    (((create (2 ^ 2) (some 0x5000)).run inOrder).map fun s => s.lastCompletedFence) = some 3 ∧
      ∀ pre turns s s' fenceId, pre ++ turns.flatten <+: inOrder →
        (create (2 ^ 2) (some 0x5000)).run pre = some s →
        virtioGpuWaitFence fenceId turns s = some (0, s') →
          ∀ c ∈ s'.calls, c.fence = fenceId → s'.Completed c := by
  refine ⟨by decide +kernel, (waitFence_completed_iff (by decide) _ inOrder).mpr ?_⟩
  have hinv : (create (2 ^ 2) (some 0x5000)).Inv := ⟨_, _, VirtqLink.inv_create (by decide)⟩
  apply (allMeet_iff hinv (fun _ hc => nomatch hc) inOrder).mpr
  intro pre s hpre hrun
  have hall := inOrder_sound pre ((mem_inits _ _).mpr hpre)
  rw [hrun] at hall
  exact of_decide_eq_true hall

/-- Two transfers. The first is refused by the device, the second succeeds. -/
def failedFirst : List Op :=
  [.beginTransfer true, .execute 0 (none, none) [[.fetch, .finish 0 0x1200]], .record 0,
    .beginTransfer true, .execute 1 (none, none) [[.fetch, .finish 1 virtioGpuRespOkNodata]], .record 1]

/-- Two threads. The second one is done before the first one has made its request. -/
def overtaken : List Op :=
  [.beginTransfer true, .beginTransfer true,
    .execute 1 (none, none) [[.fetch, .finish 0 virtioGpuRespOkNodata]], .record 1]

/-- A wait for the first fence at the end of a run. -/
def waitFirst (ops : List Op) : Option (ℤ × GpuFences) :=
  ((create 4 (some 0x5000)).run ops).bind (virtioGpuWaitFence 1 [])

/-- In both runs a wait for the first fence returns `0`; the device has refused the first command, or has
not got it yet. -/
theorem waitFence_not_completed :
    (waitFirst failedFirst).map (fun r => (r.1, r.2.gpu.link.returned)) =
        some (0, [(0, 0x1200), (1, virtioGpuRespOkNodata)]) ∧
      (waitFirst failedFirst).map (fun r => r.2.calls.map fun c => (c.fence, c.request)) =
        some [(1, some 0), (2, some 1)] ∧
      (waitFirst overtaken).map (fun r => (r.1, r.2.gpu.link.returned)) =
        some (0, [(0, virtioGpuRespOkNodata)]) ∧
      (waitFirst overtaken).map (fun r => r.2.calls.map fun c => (c.fence, c.request)) =
        some [(1, none), (2, some 0)] := by
  decide

end GpuFences

end NovaOS.Drivers
