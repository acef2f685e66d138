import NovaOS.Drivers.GpuSubmit
import NovaOS.Drivers.Virtqueue

/-!
# Requests on the control queue

Reference: `drivers/virtiogpu/caps.c`, `drivers/virtiogpu/submit.c`, `drivers/virtiogpu/virtqueue.c`.

`virtioGpuSendControlCmd` and `virtioGpuSubmit` against a device that answers at any time, also after
the driver has given up. Both put two buffers on the control queue, wait until `virtqueuePoll` finds
something in the used ring and give the memory of the buffers back; short control commands share one
page. The memory that `pmm_alloc_frames` and `pmm_alloc_frame` hand out is an argument of the calls,
and so is what the device does while they wait.

Nothing ties what `virtqueuePoll` finds to the request of the call, and nothing keeps the memory of a
request that was given up. The calls are safe as long as the device answers each of them in time.
-/

namespace NovaOS.Drivers

open NovaOS.Lib NovaOS.Mem List Function

def virtioGpuRespOkNodata : ℕ := 0x1100

/-- A run of frames. -/
structure FrameRun where
  base : ℕ
  pages : ℕ
deriving DecidableEq, Repr

/-- The buffer has a byte in `[base, base + bytes)`. -/
def VirtqBuf.Meets (buf : VirtqBuf) (base bytes : ℕ) : Prop :=
  buf.physAddr < base + bytes ∧ base < buf.physAddr + buf.len

instance (buf : VirtqBuf) (base bytes : ℕ) : Decidable (buf.Meets base bytes) :=
  inferInstanceAs (Decidable (_ ∧ _))

/-- Request number `i` was submitted and has not been taken back. -/
def VirtqLink.InFlight (s : VirtqLink) (i : ℕ) : Prop := i < s.sent.length ∧ i ∉ s.taken

instance (s : VirtqLink) (i : ℕ) : Decidable (s.InFlight i) := inferInstanceAs (Decidable (_ ∧ _))

/-- The control queue of the device, the page for short commands and the first word of each response in
memory. -/
structure GpuControl where
  link : VirtqLink
  ctrlDmaPhys : Option ℕ
  respType : ℕ → ℕ

/-- What a call gives: its result, the type of the response, the ranges that it wrote to, the frames that
it gave back and the state after it. -/
structure GpuOutcome where
  ret : ℤ
  type : ℕ
  written : List (ℕ × ℕ)
  freed : List FrameRun
  gpu : GpuControl

/-- The memory of a request: its two buffers, the bytes to write for it and the frames to give back
afterwards. -/
structure GpuMemory where
  req : VirtqBuf
  resp : VirtqBuf
  reqBytes : ℕ
  frees : List FrameRun

namespace GpuControl

def create (queueSize : ℕ) (ctrlDmaPhys : Option ℕ) : GpuControl :=
  ⟨.create queueSize, ctrlDmaPhys, fun _ => 0⟩

/-- The device writes the answer to a request into its response. -/
def answer (sent : List VirtqRequest) (respType : ℕ → ℕ) (r : ℕ × ℕ) : ℕ → ℕ :=
  match sent[r.1]?.bind fun req => req.bufs.find? (·.write) with
  | none => respType
  | some buf => update respType buf.physAddr r.2

/-- The state when the queue has come to `link`, with the answers given meanwhile. -/
def deliver (g : GpuControl) (link : VirtqLink) : GpuControl :=
  { g with
    link := link
    respType := (link.returned.drop g.link.returned.length).foldl (answer link.sent) g.respType }

/-- The device goes on while no call waits. -/
def device (g : GpuControl) (es : List VirtqLink.Event) : GpuControl := g.deliver (g.link.events es)

/-- Frames for the request and the response, or what is given back because there are not enough. -/
def dynamicMemory (reqBytes reqPages respLen respPages : ℕ) :
    (frames : Option ℕ × Option ℕ) → Except (List FrameRun) GpuMemory
  | (some req, some resp) =>
    .ok ⟨⟨req, wrap32 reqBytes, false⟩, ⟨resp, respLen, true⟩, reqBytes,
      [⟨req, reqPages⟩, ⟨resp, respPages⟩]⟩
  | (some req, none) => .error [⟨req, reqPages⟩]
  | (none, some resp) => .error [⟨resp, respPages⟩]
  | (none, none) => .error []

/-- The memory that `virtioGpuSendControlCmd` uses. -/
def controlMemory (g : GpuControl) (reqLen respLen : ℕ) (frames : Option ℕ × Option ℕ) :
    Except (List FrameRun) GpuMemory :=
  if reqLen = 0 ∨ respLen = 0 then .error []
  else
    match g.ctrlDmaPhys with
    | some dma =>
      if reqLen ≤ pageSize / 2 ∧ respLen ≤ pageSize / 2 then
        .ok ⟨⟨dma, reqLen, false⟩, ⟨dma + pageSize / 2, respLen, true⟩, reqLen, []⟩
      else
        dynamicMemory reqLen ((reqLen + pageSize - 1) / pageSize)
          respLen ((respLen + pageSize - 1) / pageSize) frames
    | none =>
      dynamicMemory reqLen ((reqLen + pageSize - 1) / pageSize)
        respLen ((respLen + pageSize - 1) / pageSize) frames

/-- The memory that `virtioGpuSubmit` uses. -/
def submitMemory (commands commandSize : ℕ) (frames : Option ℕ × Option ℕ) :
    Except (List FrameRun) GpuMemory :=
  if commands = 0 ∨ commandSize = 0 ∨ commandSize % 4 ≠ 0 then .error []
  else
    let totalBytes := wrap64 (sizeofVirtioGpuCmdSubmit3d + commandSize)
    dynamicMemory totalBytes (wrap64 (totalBytes + pageSize - 1) / pageSize)
      sizeofVirtioGpuCtrlHdr 1 frames

/-- The request is put on the queue and waited for. -/
def exchange (g : GpuControl) (m : GpuMemory) (turns : List (List VirtqLink.Event)) :
    Option (ℤ × GpuControl) :=
  let (ret, link) := g.link.submitSg [m.req, m.resp]
  if ret = 0 then (link.poll turns).map fun (ret, link) => (ret, g.deliver link)
  else some (ret, { g with link := link })

/-- The buffers are filled; the response is cleared. -/
def fill (g : GpuControl) (m : GpuMemory) : GpuControl :=
  { g with respType := update g.respType m.resp.physAddr 0 }

/-- What a call gives when its request has come to an end. -/
def outcome (m : GpuMemory) (ret : ℤ) (g : GpuControl) : GpuOutcome where
  ret := ret
  type := if ret = 0 then g.respType m.resp.physAddr else 0
  written := [(m.req.physAddr, m.reqBytes), (m.resp.physAddr, m.resp.len)]
  freed := m.frees
  gpu := g

/-- The request is made and its memory given back. -/
def transact (g : GpuControl) (memory : Except (List FrameRun) GpuMemory)
    (turns : List (List VirtqLink.Event)) : Option GpuOutcome :=
  match memory with
  | .error freed => some ⟨-1, 0, [], freed, g⟩
  | .ok m => ((g.fill m).exchange m turns).map fun (ret, g) => outcome m ret g

/-- `virtioGpuSendControlCmd`. -/
def virtioGpuSendControlCmd (g : GpuControl) (reqLen respLen : ℕ) (frames : Option ℕ × Option ℕ)
    (turns : List (List VirtqLink.Event)) : Option GpuOutcome :=
  g.transact (g.controlMemory reqLen respLen frames) turns

/-- The result of a call that looks at the type of the response. -/
def checkType (o : GpuOutcome) : GpuOutcome :=
  { o with ret := if o.ret = 0 ∧ o.type = virtioGpuRespOkNodata then 0 else -1 }

/-- `virtioGpuSubmit` without its fence. -/
def virtioGpuSubmit (g : GpuControl) (commands commandSize : ℕ) (frames : Option ℕ × Option ℕ)
    (turns : List (List VirtqLink.Event)) : Option GpuOutcome :=
  (g.transact (submitMemory commands commandSize frames) turns).map checkType

/-- The calls, each with the frames it gets. -/
inductive Call where
  | control (reqLen respLen : ℕ) (frames : Option ℕ × Option ℕ)
  | submit (commands commandSize : ℕ) (frames : Option ℕ × Option ℕ)

def memory (g : GpuControl) : Call → Except (List FrameRun) GpuMemory
  | .control reqLen respLen frames => g.controlMemory reqLen respLen frames
  | .submit commands commandSize frames => submitMemory commands commandSize frames

def call (g : GpuControl) (turns : List (List VirtqLink.Event)) : Call → Option GpuOutcome
  | .control reqLen respLen frames => g.virtioGpuSendControlCmd reqLen respLen frames turns
  | .submit commands commandSize frames => g.virtioGpuSubmit commands commandSize frames turns

/-- A run: calls, and the device in between. -/
inductive Op where
  | call (c : Call) (turns : List (List VirtqLink.Event))
  | device (es : List VirtqLink.Event)

end GpuControl

/-! ## Safe calls -/

/-- A call that reports success has its answer, does not write to memory that a request in flight refers
to and does not give such memory back. -/
structure GpuOutcome.Safe (o : GpuOutcome) (g : GpuControl) : Prop where
  answered : o.ret = 0 → g.link.sent.length ∈ o.gpu.link.returned.map Prod.fst
  unused : ∀ i req, g.link.InFlight i → g.link.sent[i]? = some req → ∀ buf ∈ req.bufs,
    ∀ w ∈ o.written, ¬ buf.Meets w.1 w.2
  kept : ∀ i req, o.gpu.link.InFlight i → o.gpu.link.sent[i]? = some req → ∀ buf ∈ req.bufs,
    ∀ f ∈ o.freed, ¬ buf.Meets f.base (f.pages * pageSize)

namespace GpuControl

/-- The device reads a request and then returns request number `n`. -/
def Answers (n : ℕ) (es : List VirtqLink.Event) : Prop :=
  ∃ es₁ es₂ word, es = es₁ ++ .finish n word :: es₂ ∧ .fetch ∈ es₁

/-- If the call gets as far as putting a request on the queue, the device answers it before the call gives
up. -/
def OnTime (g : GpuControl) (c : Call) (turns : List (List VirtqLink.Event)) : Prop :=
  ∀ m, g.memory c = .ok m → 2 ≤ g.link.vq.numFree → Answers g.link.sent.length turns.flatten

/-- Every call of the run is answered in time. -/
def Timely : GpuControl → List Op → Prop
  | _, [] => True
  | g, .device es :: ops => Timely (g.device es) ops
  | g, .call c turns :: ops =>
    g.OnTime c turns ∧ ∀ o, g.call turns c = some o → Timely o.gpu ops

/-- Every call of the run returns and is safe. -/
def Safe : GpuControl → List Op → Prop
  | _, [] => True
  | g, .device es :: ops => Safe (g.device es) ops
  | g, .call c turns :: ops => ∃ o, g.call turns c = some o ∧ o.Safe g ∧ Safe o.gpu ops

/-- Nothing is in flight. -/
def Idle (s : VirtqLink) : Prop := ∀ i, ¬ s.InFlight i

section Idle

variable {s s' : VirtqLink} {free : List ℕ} {flying : List (ℕ × List ℕ)} {n : ℕ}

/-- On an idle queue every request was taken back. -/
theorem Idle.mem_taken (h : Idle s) {i : ℕ} (hi : i < s.sent.length) : i ∈ s.taken := by
  by_contra hnot
  exact h i ⟨hi, hnot⟩

/-- So as many were taken back as were sent. -/
theorem Idle.le_reclaimed (h : Idle s) : s.sent.length ≤ s.reclaimed := by
  have hsub : range s.sent.length ⊆ s.taken := fun i hi => h.mem_taken (mem_range.mp hi)
  have hle := (subperm_of_subset nodup_range hsub).length_le
  rw [length_range, VirtqLink.taken, length_map, length_take] at hle
  omega

theorem Idle.fetched_length (h : Idle s) (hinv : s.Inv free flying) :
    s.fetched.length = s.sent.length := by
  refine le_antisymm hinv.rings.fetched_le ?_
  rcases Nat.eq_zero_or_pos s.sent.length with hzero | hpos
  · omega
  · have := hinv.rings.taken_lt (h.mem_taken (Nat.sub_lt hpos one_pos))
    omega

/-- When nothing is left to be taken back and more was taken back than were sent before, the queue with
one more request is idle again. -/
theorem idle_of_reclaimed (hinv : s'.Inv free flying) (hsent : s'.sent.length = n + 1)
    (hdone : s'.reclaimed = s'.returned.length) (hlt : n < s'.reclaimed) :
    Idle s' ∧ n ∈ s'.returned.map Prod.fst := by
  have hsub : s'.returned.map Prod.fst ⊆ range (n + 1) := by
    intro i hi
    have := hinv.rings.returned_lt i hi
    have := hinv.rings.fetched_le
    exact mem_range.mpr (by omega)
  have hperm : (s'.returned.map Prod.fst).Perm (range (n + 1)) := by
    refine (subperm_of_subset hinv.rings.returned_nodup hsub).perm_of_length_le ?_
    rw [length_range, length_map]
    omega
  have hall : s'.taken = s'.returned.map Prod.fst := by
    rw [VirtqLink.taken, hdone, take_length]
  refine ⟨fun i hi => hi.2 ?_, hperm.mem_iff.mpr (mem_range.mpr (Nat.lt_succ_self n))⟩
  rw [hall]
  exact hperm.mem_iff.mpr (mem_range.mpr (hsent ▸ hi.1))

/-- The device reads no fewer requests as it goes on. -/
theorem fetched_le_event (s : VirtqLink) (e : VirtqLink.Event) :
    s.fetched.length ≤ (s.event e).fetched.length := by
  cases e with
  | fetch =>
    rw [VirtqLink.event]
    split
    · rw [length_append]
      exact Nat.le_add_right _ _
    · exact le_rfl
  | finish i word =>
    rw [VirtqLink.event]
    cases s.fetched[i]? with
    | none => exact le_rfl
    | some head =>
      dsimp only
      split <;> exact le_rfl

theorem fetched_le_events (s : VirtqLink) (es : List VirtqLink.Event) :
    s.fetched.length ≤ (s.events es).fetched.length := by
  induction es generalizing s with
  | nil => exact le_rfl
  | cons e es ih => exact (fetched_le_event s e).trans (ih _)

variable {es : List VirtqLink.Event}

/-- The device finds the last request when it looks for it. -/
theorem lt_fetched_of_fetch (hinv : s.Inv free flying) (hsent : s.sent.length = n + 1)
    (hfetched : n ≤ s.fetched.length) (hes : .fetch ∈ es) : n < (s.events es).fetched.length := by
  induction es generalizing s with
  | nil => cases hes
  | cons e es ih =>
    rcases mem_cons.mp hes with rfl | hmem
    · refine lt_of_lt_of_le ?_ (fetched_le_events _ es)
      rw [VirtqLink.event]
      split
      · rw [length_append, length_singleton]
        omega
      · rename_i hmore
        rw [hinv.rings.availIdx_eq] at hmore
        omega
    · have hinv' : (s.event e).Inv free flying := hinv.events [e]
      exact ih hinv' ((VirtqLink.later_event s e).1.sent_eq ▸ hsent)
        (hfetched.trans (fetched_le_event s e)) hmem

/-- An answer in time is an answer. -/
theorem Answers.mem_returned (h : Answers n es) (hinv : s.Inv free flying)
    (hsent : s.sent.length = n + 1) (hfetched : n ≤ s.fetched.length) :
    n ∈ (s.events es).returned.map Prod.fst := by
  obtain ⟨es1, es2, word, rfl, hfetch⟩ := h
  have hlt := lt_fetched_of_fetch hinv hsent hfetched hfetch
  have hfinish : n ∈ ((s.events es1).event (.finish n word)).returned.map Prod.fst := by
    rw [VirtqLink.event, getElem?_eq_getElem hlt]
    dsimp only
    split
    · assumption
    · rw [map_append]
      exact mem_append_right _ (mem_singleton.mpr rfl)
  have hlater := (VirtqLink.later_events ((s.events es1).event (.finish n word)) es2).1
  rw [VirtqLink.events, foldl_append]
  exact (hlater.returned_initial.map Prod.fst).subset hfinish

end Idle

section Timely

variable {g : GpuControl} {s : VirtqLink} {free : List ℕ} {flying : List (ℕ × List ℕ)}

/-- The device alone takes nothing back. -/
theorem taken_events (hinv : s.Inv free flying) (es : List VirtqLink.Event) :
    (s.events es).taken = s.taken := by
  obtain ⟨hlater, hcount⟩ := VirtqLink.later_events s es
  obtain ⟨rest, hrest⟩ := hlater.returned_initial
  rw [VirtqLink.taken, VirtqLink.taken, hcount, ← hrest,
    take_append_of_le_length hinv.rings.reclaimed_le]

section

variable (hinv : g.link.Inv free flying)
include hinv

/-- A request returns in any case, and the device has answered no fewer requests then. -/
theorem exchange_total (m : GpuMemory) (turns : List (List VirtqLink.Event)) :
    ∃ ret g' free' flying', g.exchange m turns = some (ret, g') ∧ g'.link.Inv free' flying' ∧
      g.link.returned <+: g'.link.returned := by
  obtain ⟨free1, flying1, hinv1⟩ := hinv.submitSg [m.req, m.resp]
  obtain ⟨ret, link, free', flying', hpoll, hinv', hlater, -⟩ := hinv1.poll turns
  rw [exchange]
  dsimp only
  split
  · refine ⟨ret, g.deliver link, free', flying', ?_, hinv', hlater.returned_initial⟩
    rw [hpoll]
    rfl
  · exact ⟨_, _, free1, flying1, rfl, hinv1, prefix_refl _⟩

theorem transact_total (memory : Except (List FrameRun) GpuMemory)
    (turns : List (List VirtqLink.Event)) :
    ∃ o free' flying', g.transact memory turns = some o ∧ o.gpu.link.Inv free' flying' ∧
      g.link.returned <+: o.gpu.link.returned := by
  cases memory with
  | error freed => exact ⟨_, free, flying, rfl, hinv, prefix_refl _⟩
  | ok m =>
    obtain ⟨ret, g', free', flying', hexchange, hinv', hprefix⟩ :=
      @exchange_total (g.fill m) free flying hinv m turns
    refine ⟨outcome m ret g', free', flying', ?_, hinv', hprefix⟩
    rw [transact, hexchange]
    rfl

/-- A request on an idle queue that is answered in time: if the call reports that something came back, it
is the answer, and the queue is idle again. -/
theorem exchange_idle (hidle : Idle g.link) (m : GpuMemory) {turns : List (List VirtqLink.Event)}
    (htime : 2 ≤ g.link.vq.numFree → Answers g.link.sent.length turns.flatten) :
    ∃ ret g' free' flying', g.exchange m turns = some (ret, g') ∧ g'.link.Inv free' flying' ∧
      Idle g'.link ∧ (ret = 0 → g.link.sent.length ∈ g'.link.returned.map Prod.fst) := by
  rw [exchange]
  by_cases hrefused : [m.req, m.resp] = [] ∨ g.link.vq.queueSize < [m.req, m.resp].length ∨
      g.link.vq.numFree < [m.req, m.resp].length
  · rw [VirtqLink.submitSg_refused hrefused]
    exact ⟨-1, g, free, flying, rfl, hinv, hidle, fun h => nomatch h⟩
  · obtain ⟨free1, flying1, hinv1⟩ := hinv.submitSg [m.req, m.resp]
    push Not at hrefused
    obtain ⟨hbufs, hsize, hroom⟩ := hrefused
    rw [VirtqLink.submitSg_of_room hbufs hsize hroom] at hinv1 ⊢
    generalize hlink : VirtqLink.mk _ _ _ _ _ = link at hinv1
    dsimp only at hinv1 ⊢
    have hsent : link.sent.length = g.link.sent.length + 1 := by
      rw [← hlink, length_append]
      rfl
    have hfetched : g.link.sent.length ≤ link.fetched.length := by
      rw [← hlink]
      exact (hidle.fetched_length hinv).ge
    have hreclaimed : link.reclaimed = g.link.reclaimed := by rw [← hlink]
    have hreturned : link.returned = g.link.returned := by rw [← hlink]
    obtain ⟨ret, link', free', flying', hpoll, hinv', hlater, hdone, hret⟩ := hinv1.poll turns
    have hsent' : link'.sent.length = g.link.sent.length + 1 :=
      (congrArg length hlater.sent_eq).trans hsent
    have hle := hidle.le_reclaimed
    have hlt : g.link.sent.length < link'.reclaimed := by
      rcases hret with ⟨-, hlt⟩ | ⟨-, heq⟩
      · omega
      · -- giving up contradicts the answer in time
        have hmem := (htime hroom).mem_returned hinv1 hsent hfetched
        rw [← heq] at hmem
        by_contra hge
        have hlen : link'.returned.length ≤ link.returned.length := by
          have := hinv.rings.reclaimed_le
          rw [hreturned]
          omega
        rw [← hlater.returned_initial.eq_of_length_le hlen, hreturned] at hmem
        have := hinv.rings.returned_lt _ hmem
        have := hinv.rings.fetched_le
        omega
    obtain ⟨hidle', hown⟩ := idle_of_reclaimed hinv' hsent' hdone hlt
    refine ⟨ret, g.deliver link', free', flying', ?_, hinv', hidle', fun _ => hown⟩
    rw [hpoll]
    rfl

/-- A call on an idle queue that is answered in time is safe and leaves the queue idle. -/
theorem call_idle (hidle : Idle g.link) {c : Call} {turns : List (List VirtqLink.Event)}
    (htime : g.OnTime c turns) :
    ∃ o free' flying', g.call turns c = some o ∧ o.Safe g ∧ o.gpu.link.Inv free' flying' ∧
      Idle o.gpu.link := by
  have htransact : ∃ o free' flying', g.transact (g.memory c) turns = some o ∧ o.Safe g ∧
      o.gpu.link.Inv free' flying' ∧ Idle o.gpu.link := by
    cases hm : g.memory c with
    | error freed =>
      refine ⟨_, free, flying, rfl, ⟨fun h => absurd h (show (-1 : ℤ) ≠ 0 by decide), ?_, ?_⟩,
        hinv, hidle⟩
      · exact fun i _ hi => absurd hi (hidle i)
      · exact fun i _ hi => absurd hi (hidle i)
    | ok m =>
      obtain ⟨ret, g', free', flying', hexchange, hinv', hidle', hown⟩ :=
        @exchange_idle (g.fill m) free flying hinv hidle m turns (htime m hm)
      refine ⟨outcome m ret g', free', flying', ?_, ⟨hown, ?_, ?_⟩, hinv', hidle'⟩
      · rw [transact, hexchange]
        rfl
      · exact fun i _ hi => absurd hi (hidle i)
      · exact fun i _ hi => absurd hi (hidle' i)
  obtain ⟨o, free', flying', heq, hsafe, hinv', hidle'⟩ := htransact
  cases c with
  | control reqLen respLen frames => exact ⟨o, free', flying', heq, hsafe, hinv', hidle'⟩
  | submit commands commandSize frames =>
    refine ⟨checkType o, free', flying', ?_, ⟨fun hret => ?_, hsafe.unused, hsafe.kept⟩, hinv', hidle'⟩
    · exact congrArg (Option.map checkType) heq
    · rw [checkType] at hret
      by_cases hok : o.ret = 0 ∧ o.type = virtioGpuRespOkNodata
      · exact hsafe.answered hok.1
      · rw [if_neg hok] at hret
        exact absurd hret (show (-1 : ℤ) ≠ 0 by decide)

/-- Every call of a run in which the device answers in time is safe. -/
theorem Timely.safe (hidle : Idle g.link) {ops : List Op} (h : Timely g ops) : Safe g ops := by
  induction ops generalizing g free flying with
  | nil => trivial
  | cons op ops ih =>
    cases op with
    | device es =>
      have hidle' : Idle (g.device es).link := by
        intro i hi
        have hsent := (VirtqLink.later_events g.link es).1.sent_eq
        exact hidle i ⟨hsent ▸ hi.1, taken_events hinv es ▸ hi.2⟩
      exact ih (hinv.events es) hidle' h
    | call c turns =>
      obtain ⟨o, free', flying', hcall, hsafe, hinv', hidle'⟩ := call_idle hinv hidle h.1
      exact ⟨o, hcall, hsafe, ih hinv' hidle' (h.2 o hcall)⟩

end

end Timely

/-- A run on a fresh device in which every request is answered before its call gives up. -/
theorem create_run_safe {k : ℕ} (hk : k ≤ 15) (ctrlDmaPhys : Option ℕ) {ops : List Op}
    (h : Timely (create (2 ^ k) ctrlDmaPhys) ops) : Safe (create (2 ^ k) ctrlDmaPhys) ops :=
  h.safe (VirtqLink.inv_create hk) (by exact fun i hi => absurd hi.1 (Nat.not_lt_zero i))

/-- A control command that the device answers at once, a submission and a control command that it answers
in the second turn. -/
def promptOps : List Op :=
  [.call (.control 24 24 (none, none)) [[.fetch, .finish 0 virtioGpuRespOkNodata]],
    .call (.submit 0x1000 8 (some 0x8000, some 0x9000)) [[.fetch], [.finish 1 0x1200]],
    .device [.fetch],
    .call (.control 24 24 (none, none)) [[], [.fetch, .finish 2 virtioGpuRespOkNodata]]]

theorem timely_promptOps : Timely (create (2 ^ 1) (some 0x5000)) promptOps := by
  refine ⟨fun _ _ _ => ⟨[.fetch], [], virtioGpuRespOkNodata, rfl, mem_singleton.mpr rfl⟩, fun o ho => ?_⟩
  have hone : (((create (2 ^ 1) (some 0x5000)).call [[.fetch, .finish 0 virtioGpuRespOkNodata]]
      (.control 24 24 (none, none))).map fun o => o.gpu.link.sent.length) = some 1 := by decide
  rw [ho] at hone
  have hsent : o.gpu.link.sent.length = 1 := Option.some.inj hone
  refine ⟨fun _ _ _ => ⟨[.fetch], [], 0x1200, by rw [hsent]; rfl, mem_singleton.mpr rfl⟩, fun o' ho' => ?_⟩
  have htwo : (((create (2 ^ 1) (some 0x5000)).call [[.fetch, .finish 0 virtioGpuRespOkNodata]]
      (.control 24 24 (none, none))).bind fun o => (o.gpu.call [[.fetch], [.finish 1 0x1200]]
        (.submit 0x1000 8 (some 0x8000, some 0x9000))).map fun o => (o.gpu.device [.fetch]).link.sent.length) =
      some 2 := by decide
  rw [ho, Option.bind_some, ho'] at htwo
  have hsent' : (o'.gpu.device [.fetch]).link.sent.length = 2 := Option.some.inj htwo
  exact ⟨fun _ _ _ => ⟨[.fetch], [], virtioGpuRespOkNodata, by rw [hsent']; rfl, mem_singleton.mpr rfl⟩,
    fun _ _ => trivial⟩

theorem create_run_safe_promptOps :
    1 ≤ 15 ∧ Timely (create (2 ^ 1) (some 0x5000)) promptOps ∧
      Safe (create (2 ^ 1) (some 0x5000)) promptOps :=
  ⟨by decide, timely_promptOps, create_run_safe (by decide) _ timely_promptOps⟩

/-- The device after a control command that it has not answered in time. -/
def afterTimeout : Option GpuOutcome :=
  (create 4 (some 0x5000)).virtioGpuSendControlCmd 24 24 (none, none) []

/-- The next command, while which the device answers the first one. -/
def lateAnswer : Option GpuOutcome :=
  afterTimeout.bind fun o => o.gpu.virtioGpuSendControlCmd 24 24 (none, none)
    [[.fetch, .fetch, .finish 0 virtioGpuRespOkNodata]]

/-- A submission that is not answered in time. -/
def submitTimeout : Option GpuOutcome :=
  (create 4 none).virtioGpuSubmit 0x1000 4 (some 0x8000, some 0x9000) []

/-- A late answer is taken for the answer to the next command, whose buffers are those of the command
still in flight; and a submission that is not answered in time gives back frames that the device may
still write to. -/
theorem late_answer_taken :
    (afterTimeout.map fun o => (o.ret, decide (o.gpu.link.InFlight 0))) = some (-1, true) ∧
      (lateAnswer.map fun o => (o.ret, o.gpu.link.returned)) =
        some (0, [(0, virtioGpuRespOkNodata)]) ∧
      (afterTimeout.map fun o => o.gpu.link.sent) =
        some [⟨0, [⟨0x5000, 24, false⟩, ⟨0x5800, 24, true⟩]⟩] ∧
      (lateAnswer.map fun o => o.written) = some [(0x5000, 24), (0x5800, 24)] ∧
      (submitTimeout.map fun o => (o.ret, decide (o.gpu.link.InFlight 0))) = some (-1, true) ∧
      (submitTimeout.map fun o => o.gpu.link.sent) =
        some [⟨0, [⟨0x8000, 36, false⟩, ⟨0x9000, 24, true⟩]⟩] ∧
      (submitTimeout.map fun o => o.freed) = some [⟨0x8000, 1⟩, ⟨0x9000, 1⟩] := by
  decide

end GpuControl

end NovaOS.Drivers
