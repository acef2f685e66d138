import NovaOS.Drivers.Nvme
import NovaOS.Lib.PhaseRing

/-!
# NVMe queues

Reference: `kernel/krdrivers/nvme/nvme.c`, `kernel/krdrivers/nvme/nvme.h`.

A queue pair as the driver keeps it, and a channel: the queue pair together with the controller at its
other end. The controller posts completions into the completion slots in order and marks each with the
phase tag of its lap, but never overtakes the driver's head. `posted` is everything it has posted and
`taken` everything that the driver has taken out, by the polling loops or in the interrupt handler.
-/

namespace NovaOS.Drivers

open NovaOS.Lib Function List Option

/-- `NvmeCqe`. -/
structure NvmeCqe where
  cdw0 : ℕ
  sqHead : ℕ
  sqId : ℕ
  commandId : ℕ
  status : ℕ
deriving DecidableEq, Repr

/-- `NvmeCommandContext`. -/
structure NvmeCommandContext where
  done : Bool
  status : ℕ
  cqe : NvmeCqe

/-- `NvmeQueue`; the doorbells are the values last written to them, and `contexts` is `none` where the
pointer is null. -/
structure NvmeQueue where
  sq : ℕ → NvmeSqe
  cq : ℕ → NvmeCqe
  sqDoorbell : ℕ
  cqDoorbell : ℕ
  size : ℕ
  sqTail : ℕ
  cqHead : ℕ
  cqPhase : ℕ
  contexts : Option (ℕ → NvmeCommandContext)

namespace NvmeQueue

/-- A queue as `nvme_setup_admin_queue` and `nvme_setup_io_queue` leave it; the latter has contexts. -/
def setup (size : ℕ) (hasContexts : Bool) : NvmeQueue where
  sq := fun _ => ⟨0, 0, 0, 0, 0, 0, 0⟩
  cq := fun _ => ⟨0, 0, 0, 0, 0⟩
  sqDoorbell := 0
  cqDoorbell := 0
  size := size
  sqTail := 0
  cqHead := 0
  cqPhase := 1
  contexts := if hasContexts then some fun _ => ⟨false, 0, ⟨0, 0, 0, 0, 0⟩⟩ else none

/-- `(q->cq[q->cq_head].status & 1) == q->cq_phase`. -/
def Ready (q : NvmeQueue) : Prop := (q.cq q.cqHead).status % 2 = q.cqPhase

instance (q : NvmeQueue) : Decidable q.Ready := inferInstanceAs (Decidable (_ = _))

/-- The head moved past a completion. -/
def advance (q : NvmeQueue) : NvmeQueue :=
  let cqHead := (q.cqHead + 1) % q.size
  { q with cqHead := cqHead, cqPhase := if cqHead = 0 then q.cqPhase ^^^ 1 else q.cqPhase }

theorem contexts_advance (q : NvmeQueue) : q.advance.contexts = q.contexts := rfl

/-- The context of a command. -/
def setContext (q : NvmeQueue) (cid : ℕ) (f : NvmeCommandContext → NvmeCommandContext) : NvmeQueue :=
  { q with contexts := q.contexts.map fun ctx => update ctx cid (f (ctx cid)) }

theorem isSome_setContext (q : NvmeQueue) (cid : ℕ) (f : NvmeCommandContext → NvmeCommandContext) :
    (q.setContext cid f).contexts.isSome = q.contexts.isSome := isSome_map

/-- The first half of `nvme_submit_admin_cmd` and `nvme_submit_io_cmd`: the command is given its
identifier and rung at the doorbell. -/
def enqueue (q : NvmeQueue) (cmd : NvmeSqe) : NvmeQueue :=
  let cid := q.sqTail
  let cmd := { cmd with cdw0 := (cmd.cdw0 &&& 0xFFFF) ||| (cid <<< 16) }
  let q := q.setContext cid fun ctx => { ctx with done := false, status := 0 }
  let sqTail := (q.sqTail + 1) % q.size
  { q with sq := update q.sq q.sqTail cmd, sqTail := sqTail, sqDoorbell := sqTail }

theorem contexts_enqueue (q : NvmeQueue) (cmd : NvmeSqe) : (q.enqueue cmd).contexts =
    (q.setContext q.sqTail fun ctx => { ctx with done := false, status := 0 }).contexts := rfl

/-- One completion in the loop of `nvme_irq_handler`. -/
def completeNext (q : NvmeQueue) : NvmeQueue :=
  let cqe := q.cq q.cqHead
  let q :=
    if cqe.commandId < q.size then
      q.setContext cqe.commandId fun _ => ⟨true, cqe.status / 2, cqe⟩
    else q
  q.advance

end NvmeQueue

/-- A queue pair and the controller at its other end; `useMsix` is the controller's. -/
structure NvmeChannel where
  useMsix : Bool
  q : NvmeQueue
  posted : List NvmeCqe
  taken : List NvmeCqe

namespace NvmeChannel

/-- A channel before the first command. -/
def setup (useMsix : Bool) (size : ℕ) (hasContexts : Bool) : NvmeChannel :=
  ⟨useMsix, .setup size hasContexts, [], []⟩

/-- The controller posts a completion, unless that would overtake the head. The tag of the entry is
that of its lap, whatever the low bit of `c.status`. -/
def post (ch : NvmeChannel) (c : NvmeCqe) : NvmeChannel :=
  if ch.posted.length < ch.taken.length + ch.q.size then
    let c := { c with status := c.status / 2 * 2 + lapTag ch.q.size ch.posted.length }
    { ch with
      q := { ch.q with cq := update ch.q.cq (ch.posted.length % ch.q.size) c }
      posted := ch.posted ++ [c] }
  else ch

/-- The test of a polling loop and, when it leaves the loop, the completion that is taken. -/
def poll (ch : NvmeChannel) : Option NvmeCqe × NvmeChannel :=
  if ch.q.Ready then
    let cqe := ch.q.cq ch.q.cqHead
    let q := ch.q.advance
    (some cqe, { ch with q := { q with cqDoorbell := q.cqHead }, taken := ch.taken ++ [cqe] })
  else (none, ch)

/-- One turn of the loop of `nvme_irq_handler`. -/
def completeNext (ch : NvmeChannel) : NvmeChannel :=
  { ch with q := ch.q.completeNext, taken := ch.taken ++ [ch.q.cq ch.q.cqHead] }

/-- The loop of `nvme_irq_handler`, with the number of completions processed. `arrivals` are the
completions posted after each turn of the loop. -/
def irqLoop : (fuel : ℕ) → (arrivals : List (List NvmeCqe)) → (processed : ℕ) → NvmeChannel →
    ℕ × NvmeChannel
  | 0, _, processed, ch => (processed, ch)
  | fuel + 1, arrivals, processed, ch =>
    if ch.q.Ready then
      irqLoop fuel arrivals.tail ((processed + 1) % 2 ^ 16)
        ((arrivals.headD []).foldl post ch.completeNext)
    else (processed, ch)

/-- `nvme_irq_handler` for the I/O queue of one controller. -/
def nvmeIrqHandler (ch : NvmeChannel) (arrivals : List (List NvmeCqe)) : NvmeChannel :=
  if ch.useMsix = false ∨ ch.q.contexts.isNone then ch
  else
    let (processed, ch) := irqLoop (ch.q.size + arrivals.flatten.length + 1) arrivals 0 ch
    if processed > 0 then { ch with q := { ch.q with cqDoorbell := ch.q.cqHead } } else ch

/-- What can happen on a channel, in any order. -/
inductive Op where
  | post (c : NvmeCqe)
  | submit (cmd : NvmeSqe)
  | poll
  | irq (arrivals : List (List NvmeCqe))

def step (ch : NvmeChannel) : Op → NvmeChannel
  | .post c => ch.post c
  | .submit cmd => { ch with q := ch.q.enqueue cmd }
  | .poll => ch.poll.2
  | .irq arrivals => ch.nvmeIrqHandler arrivals

def run (ch : NvmeChannel) (ops : List Op) : NvmeChannel := ops.foldl step ch

/-! ## What the driver takes out -/

/-- The slots hold the completions posted, and the driver has taken them in order and knows the lap. -/
structure Inv (size : ℕ) (ch : NvmeChannel) : Prop where
  size_eq : ch.q.size = size
  ring : PhaseRing (fun c : NvmeCqe => c.status % 2) size ch.q.cq ch.posted ch.taken.length
  taken_eq : ch.taken = ch.posted.take ch.taken.length
  head_eq : ch.q.cqHead = ch.taken.length % size
  phase_eq : ch.q.cqPhase = lapTag size ch.taken.length

section Inv

variable {size : ℕ} {ch : NvmeChannel}

theorem inv_setup (useMsix : Bool) (hasContexts : Bool) (hsize : 0 < size) :
    Inv size (setup useMsix size hasContexts) where
  size_eq := rfl
  ring := PhaseRing.nil hsize fun _ _ => rfl
  taken_eq := rfl
  head_eq := (Nat.zero_mod size).symm
  phase_eq := (lapTag_of_lt hsize).symm

/-- The driver sees that a completion is there. -/
theorem Inv.ready_iff (h : Inv size ch) : ch.q.Ready ↔ ch.taken.length < ch.posted.length := by
  rw [NvmeQueue.Ready, h.head_eq, h.phase_eq]
  exact h.ring.tag_next_iff

/-- The completion that it sees is the next one. -/
theorem Inv.next_eq (h : Inv size ch) (hlt : ch.taken.length < ch.posted.length) :
    ch.q.cq ch.q.cqHead = ch.posted[ch.taken.length] := by
  rw [h.head_eq]
  exact h.ring.next_eq hlt

variable {q : NvmeQueue}

section

variable (h : Inv size ch)
include h

/-- Other fields of the queue do not matter. -/
theorem Inv.congr (hsize : q.size = ch.q.size) (hcq : q.cq = ch.q.cq)
    (hhead : q.cqHead = ch.q.cqHead) (hphase : q.cqPhase = ch.q.cqPhase) :
    Inv size { ch with q := q } where
  size_eq := hsize.trans h.size_eq
  ring := by
    rw [hcq]
    exact h.ring
  taken_eq := h.taken_eq
  head_eq := hhead.trans h.head_eq
  phase_eq := hphase.trans h.phase_eq

theorem Inv.post (c : NvmeCqe) : Inv size (ch.post c) := by
  unfold NvmeChannel.post
  split
  · rename_i hroom
    rw [h.size_eq] at hroom
    have htag : ∀ k, (c.status / 2 * 2 + lapTag size k) % 2 = lapTag size k := by
      intro k
      rw [lapTag]
      omega
    exact { h with
      ring := by
        rw [h.size_eq]
        exact h.ring.post hroom (htag _)
      taken_eq := by
        refine h.taken_eq.trans ?_
        rw [take_append_of_le_length h.ring.taken_le] }
  · exact h

/-- Taking the completion at the head and moving on, whatever is done with it. -/
theorem Inv.take (hready : ch.q.Ready) (hsize : q.size = ch.q.size) (hcq : q.cq = ch.q.cq)
    (hhead : q.cqHead = ch.q.advance.cqHead) (hphase : q.cqPhase = ch.q.advance.cqPhase) :
    Inv size { ch with q := q, taken := ch.taken ++ [ch.q.cq ch.q.cqHead] } := by
  have hlt := h.ready_iff.mp hready
  have hlen : (ch.taken ++ [ch.q.cq ch.q.cqHead]).length = ch.taken.length + 1 := by
    rw [length_append, length_singleton]
  have hpos := h.ring.pos
  have hmod : (ch.q.cqHead + 1) % ch.q.size = (ch.taken.length + 1) % size := by
    rw [h.head_eq, h.size_eq, Nat.mod_add_mod]
  exact {
    size_eq := hsize.trans h.size_eq
    ring := by
      rw [hcq]
      rw [hlen]
      exact h.ring.take hlt
    taken_eq := by
      rw [hlen, take_succ_eq_append_getElem hlt, ← h.taken_eq, h.next_eq hlt]
    head_eq := by
      rw [hlen, hhead, NvmeQueue.advance, hmod]
    phase_eq := by
      rw [hlen, hphase, NvmeQueue.advance, h.phase_eq, lapTag_succ hpos, h.head_eq, h.size_eq] }

theorem Inv.poll : Inv size ch.poll.2 := by
  unfold NvmeChannel.poll
  split
  · rename_i hready
    exact h.take hready rfl rfl rfl rfl
  · exact h

theorem Inv.enqueue (cmd : NvmeSqe) : Inv size { ch with q := ch.q.enqueue cmd } :=
  h.congr rfl rfl rfl rfl

theorem Inv.completeNext (hready : ch.q.Ready) : Inv size ch.completeNext := by
  have hsame : ch.q.completeNext.size = ch.q.size ∧ ch.q.completeNext.cq = ch.q.cq ∧
      ch.q.completeNext.cqHead = ch.q.advance.cqHead ∧
      ch.q.completeNext.cqPhase = ch.q.advance.cqPhase := by
    unfold NvmeQueue.completeNext
    dsimp only
    split <;> exact ⟨rfl, rfl, rfl, rfl⟩
  exact h.take hready hsame.1 hsame.2.1 hsame.2.2.1 hsame.2.2.2

theorem Inv.foldl_post (cs : List NvmeCqe) : Inv size (cs.foldl NvmeChannel.post ch) := by
  induction cs generalizing ch with
  | nil => exact h
  | cons c cs ih => exact ih (h.post c)

end

/-- A post adds at most one completion and takes none. -/
theorem post_length (ch : NvmeChannel) (c : NvmeCqe) : (ch.post c).taken = ch.taken ∧
    (ch.post c).posted.length ≤ ch.posted.length + 1 := by
  unfold NvmeChannel.post
  split
  · exact ⟨rfl, by rw [length_append, length_singleton]⟩
  · exact ⟨rfl, Nat.le_succ _⟩

theorem foldl_post_length (ch : NvmeChannel) (cs : List NvmeCqe) :
    (cs.foldl NvmeChannel.post ch).taken = ch.taken ∧
      (cs.foldl NvmeChannel.post ch).posted.length ≤ ch.posted.length + cs.length := by
  induction cs generalizing ch with
  | nil => exact ⟨rfl, le_rfl⟩
  | cons c cs ih =>
    obtain ⟨htaken, hposted⟩ := ch.post_length c
    obtain ⟨htaken', hposted'⟩ := ih (ch.post c)
    refine ⟨htaken'.trans htaken, ?_⟩
    rw [foldl_cons, length_cons]
    omega

section

variable (h : Inv size ch)
include h

/-- The loop of the handler ends when everything posted has been taken. -/
theorem Inv.irqLoop {fuel : ℕ} {arrivals : List (List NvmeCqe)} (processed : ℕ)
    (hfuel : ch.posted.length - ch.taken.length + arrivals.flatten.length < fuel) :
    Inv size (irqLoop fuel arrivals processed ch).2 ∧
      (irqLoop fuel arrivals processed ch).2.taken =
        (irqLoop fuel arrivals processed ch).2.posted := by
  induction fuel generalizing ch arrivals processed with
  | zero => omega
  | succ fuel ih =>
    rw [NvmeChannel.irqLoop]
    split
    · rename_i hready
      have hlt := h.ready_iff.mp hready
      have htaken : ch.completeNext.taken.length = ch.taken.length + 1 := length_append
      have hposted : ch.completeNext.posted = ch.posted := rfl
      obtain ⟨htaken', hposted'⟩ := foldl_post_length ch.completeNext (arrivals.headD [])
      refine ih ((h.completeNext hready).foldl_post _) _ ?_
      rw [htaken']
      rw [hposted] at hposted'
      cases arrivals with
      | nil =>
        simp only [headD_nil, length_nil, tail_nil] at *
        omega
      | cons batch rest =>
        simp only [headD_cons, tail_cons, flatten_cons, length_append] at *
        omega
    · rename_i hready
      refine ⟨h, ?_⟩
      have hnot := mt h.ready_iff.mpr hready
      rw [h.taken_eq, take_of_length_le (not_lt.mp hnot)]

theorem Inv.nvmeIrqHandler (arrivals : List (List NvmeCqe)) :
    Inv size (ch.nvmeIrqHandler arrivals) ∧
      (ch.useMsix = true → ch.q.contexts.isSome →
        (ch.nvmeIrqHandler arrivals).taken = (ch.nvmeIrqHandler arrivals).posted) := by
  unfold NvmeChannel.nvmeIrqHandler
  split
  · rename_i hoff
    refine ⟨h, fun hmsix hctx => ?_⟩
    rcases hoff with hoff | hoff
    · exact nomatch hmsix.symm.trans hoff
    · exact absurd hctx (by simpa using hoff)
  · have hroom := h.ring.room
    have hfuel : ch.posted.length - ch.taken.length + arrivals.flatten.length <
        ch.q.size + arrivals.flatten.length + 1 := by
      rw [h.size_eq]
      omega
    obtain ⟨hinv, hall⟩ := h.irqLoop 0 hfuel
    dsimp only
    split
    · exact ⟨hinv.congr rfl rfl rfl rfl, fun _ _ => hall⟩
    · exact ⟨hinv, fun _ _ => hall⟩

theorem Inv.step (op : Op) : Inv size (ch.step op) := by
  cases op with
  | post c => exact h.post c
  | submit cmd => exact h.enqueue cmd
  | poll => exact h.poll
  | irq arrivals => exact (h.nvmeIrqHandler arrivals).1

theorem Inv.run (ops : List Op) : Inv size (ch.run ops) := by
  induction ops generalizing ch with
  | nil => exact h
  | cons op ops ih => exact ih (h.step op)

end

end Inv

variable {ch : NvmeChannel}

/-- What a completion that finds room changes. -/
theorem post_of_room (h : ch.posted.length < ch.taken.length + ch.q.size) (c : NvmeCqe) :
    (ch.post c).posted = ch.posted ++
        [{ c with status := c.status / 2 * 2 + lapTag ch.q.size ch.posted.length }] ∧
      (ch.post c).q.sqTail = ch.q.sqTail ∧ (ch.post c).q.contexts = ch.q.contexts ∧
      (ch.post c).useMsix = ch.useMsix := by
  rw [post, if_pos h]
  exact ⟨rfl, rfl, rfl, rfl⟩

/-! ## What the interrupt handler leaves in the contexts -/

/-- The contexts after the completions `cs` have been put into them. -/
def filled (size : ℕ) (ctx : ℕ → NvmeCommandContext) (cs : List NvmeCqe) : ℕ → NvmeCommandContext :=
  cs.foldl (fun ctx c =>
    if c.commandId < size then update ctx c.commandId ⟨true, c.status / 2, c⟩ else ctx) ctx

variable {size : ℕ}

/-- A context holds the last completion for its identifier. -/
theorem filled_apply {cid : ℕ} (hcid : cid < size) (ctx : ℕ → NvmeCommandContext)
    (cs : List NvmeCqe) :
    filled size ctx cs cid =
      ((cs.filter fun c => c.commandId == cid).getLast?.map fun c =>
        (⟨true, c.status / 2, c⟩ : NvmeCommandContext)).getD (ctx cid) := by
  -- induction from the last completion back
  induction cs using List.reverseRecOn with
  | nil => rfl
  | append_singleton cs c ih =>
    have hlast : filled size ctx (cs ++ [c]) = if c.commandId < size then
        update (filled size ctx cs) c.commandId ⟨true, c.status / 2, c⟩
        else filled size ctx cs := foldl_append
    rw [hlast, filter_append, filter_singleton]
    by_cases hc : c.commandId = cid
    · rw [hc, if_pos hcid, update_self, beq_self_eq_true, getLast?_append]
      rfl
    · have hbeq : (c.commandId == cid) = false := beq_false_of_ne hc
      rw [hbeq, cond_false, append_nil, ← ih]
      split
      · rw [update_of_ne (Ne.symm hc)]
      · rfl

theorem completeNext_contexts (ch : NvmeChannel) : ch.completeNext.q.contexts =
    ch.q.contexts.map fun ctx => filled ch.q.size ctx [ch.q.cq ch.q.cqHead] := by
  unfold completeNext NvmeQueue.completeNext
  rw [NvmeQueue.contexts_advance]
  by_cases hcid : (ch.q.cq ch.q.cqHead).commandId < ch.q.size
  · simp only [if_pos hcid, NvmeQueue.setContext, filled, foldl_cons, foldl_nil]
  · simp only [if_neg hcid, filled, foldl_cons, foldl_nil, Option.map_id']

/-- What one run of the handler does when nothing is posted meanwhile. -/
structure Drained (ch ch' : NvmeChannel) : Prop where
  posted_eq : ch'.posted = ch.posted
  taken_eq : ch'.taken = ch.posted
  sqTail_eq : ch'.q.sqTail = ch.q.sqTail
  contexts_eq : ch'.q.contexts =
    ch.q.contexts.map fun ctx => filled ch.q.size ctx (ch.posted.drop ch.taken.length)

theorem Inv.irqLoop_nil {fuel : ℕ} (h : Inv size ch) (processed : ℕ)
    (hfuel : ch.posted.length - ch.taken.length < fuel) :
    Drained ch (NvmeChannel.irqLoop fuel [] processed ch).2 := by
  induction fuel generalizing ch processed with
  | zero => omega
  | succ fuel ih =>
    rw [NvmeChannel.irqLoop]
    split
    · rename_i hready
      have hlt := h.ready_iff.mp hready
      have htaken : ch.completeNext.taken.length = ch.taken.length + 1 := length_append
      have hnext := h.completeNext hready
      have hrest := ih hnext ((processed + 1) % 2 ^ 16)
        (by rw [htaken, show ch.completeNext.posted = ch.posted from rfl]; omega)
      have hsame : ch.completeNext.q.sqTail = ch.q.sqTail ∧ ch.completeNext.q.size = ch.q.size := by
        refine ⟨?_, hnext.size_eq.trans h.size_eq.symm⟩
        unfold NvmeChannel.completeNext NvmeQueue.completeNext
        dsimp only
        split <;> rfl
      refine ⟨hrest.posted_eq, hrest.taken_eq, hrest.sqTail_eq.trans hsame.1, ?_⟩
      refine hrest.contexts_eq.trans ?_
      rw [completeNext_contexts, Option.map_map, htaken, hsame.2,
        drop_eq_getElem_cons hlt, ← h.next_eq hlt]
      rfl
    · rename_i hready
      have hall : ch.posted.length ≤ ch.taken.length := not_lt.mp (mt h.ready_iff.mpr hready)
      refine ⟨rfl, ?_, rfl, ?_⟩
      · rw [h.taken_eq, take_of_length_le hall]
      · rw [drop_of_length_le hall]
        exact map_id'.symm

theorem Inv.nvmeIrqHandler_nil (h : Inv size ch) (hmsix : ch.useMsix = true)
    (hctx : ch.q.contexts.isSome) : Drained ch (ch.nvmeIrqHandler []) := by
  have hroom := h.ring.room
  have hfuel : ch.posted.length - ch.taken.length <
      ch.q.size + ([] : List (List NvmeCqe)).flatten.length + 1 := by
    rw [h.size_eq]
    omega
  have hloop := h.irqLoop_nil 0 hfuel
  have hon : ¬(ch.useMsix = false ∨ ch.q.contexts.isNone) := by
    rw [hmsix, isNone_iff_eq_none, ← not_isSome_iff_eq_none]
    simp [hctx]
  unfold NvmeChannel.nvmeIrqHandler
  rw [if_neg hon]
  dsimp only
  split
  · exact ⟨hloop.posted_eq, hloop.taken_eq, hloop.sqTail_eq, hloop.contexts_eq⟩
  · exact hloop

/-! ## Nothing is forgotten -/

theorem posted_post (ch : NvmeChannel) (c : NvmeCqe) : ch.posted <+: (ch.post c).posted := by
  unfold post
  split
  · exact prefix_append _ _
  · exact prefix_rfl

theorem posted_foldl_post (ch : NvmeChannel) (cs : List NvmeCqe) :
    ch.posted <+: (cs.foldl post ch).posted := by
  induction cs generalizing ch with
  | nil => exact prefix_rfl
  | cons c cs ih => exact (ch.posted_post c).trans (ih (ch.post c))

theorem posted_irqLoop (fuel : ℕ) (arrivals : List (List NvmeCqe)) (processed : ℕ)
    (ch : NvmeChannel) : ch.posted <+: (irqLoop fuel arrivals processed ch).2.posted := by
  induction fuel generalizing arrivals processed ch with
  | zero => exact prefix_rfl
  | succ fuel ih =>
    rw [irqLoop]
    split
    · exact (posted_foldl_post ch.completeNext _).trans (ih _ _ _)
    · exact prefix_rfl

theorem posted_nvmeIrqHandler (ch : NvmeChannel) (arrivals : List (List NvmeCqe)) :
    ch.posted <+: (ch.nvmeIrqHandler arrivals).posted := by
  unfold nvmeIrqHandler
  split
  · exact prefix_rfl
  · have hloop := posted_irqLoop (ch.q.size + arrivals.flatten.length + 1) arrivals 0 ch
    dsimp only
    split <;> exact hloop

/-- Whether there are contexts, and whether interrupts are used, stays as it was set up. -/
def Mode (useMsix hasContexts : Bool) (ch : NvmeChannel) : Prop :=
  ch.useMsix = useMsix ∧ ch.q.contexts.isSome = hasContexts

section Mode

variable {useMsix hasContexts : Bool} {ch : NvmeChannel}

section

variable (h : Mode useMsix hasContexts ch)
include h

theorem Mode.post (c : NvmeCqe) : Mode useMsix hasContexts (ch.post c) := by
  unfold NvmeChannel.post
  split <;> exact h

theorem Mode.foldl_post (cs : List NvmeCqe) :
    Mode useMsix hasContexts (cs.foldl NvmeChannel.post ch) := by
  induction cs generalizing ch with
  | nil => exact h
  | cons c cs ih => exact ih (h.post c)

theorem Mode.completeNext : Mode useMsix hasContexts ch.completeNext := by
  refine ⟨h.1, .trans ?_ h.2⟩
  unfold NvmeChannel.completeNext NvmeQueue.completeNext
  dsimp only
  split
  · rw [NvmeQueue.contexts_advance, NvmeQueue.isSome_setContext]
  · rfl

theorem Mode.irqLoop (fuel : ℕ) (arrivals : List (List NvmeCqe)) (processed : ℕ) :
    Mode useMsix hasContexts (irqLoop fuel arrivals processed ch).2 := by
  induction fuel generalizing ch arrivals processed with
  | zero => exact h
  | succ fuel ih =>
    rw [NvmeChannel.irqLoop]
    split
    · exact ih (h.completeNext.foldl_post _) _ _
    · exact h

theorem Mode.nvmeIrqHandler (arrivals : List (List NvmeCqe)) :
    Mode useMsix hasContexts (ch.nvmeIrqHandler arrivals) := by
  unfold NvmeChannel.nvmeIrqHandler
  split
  · exact h
  · have hloop := h.irqLoop (ch.q.size + arrivals.flatten.length + 1) arrivals 0
    dsimp only
    split <;> exact hloop

theorem Mode.step (op : Op) : Mode useMsix hasContexts (ch.step op) := by
  cases op with
  | post c => exact h.post c
  | submit cmd =>
    refine ⟨h.1, .trans ?_ h.2⟩
    exact (congrArg isSome (ch.q.contexts_enqueue cmd)).trans (ch.q.isSome_setContext _ _)
  | poll =>
    change Mode useMsix hasContexts ch.poll.2
    unfold NvmeChannel.poll
    split <;> exact h
  | irq arrivals => exact h.nvmeIrqHandler arrivals

theorem Mode.run (ops : List Op) : Mode useMsix hasContexts (ch.run ops) := by
  induction ops generalizing ch with
  | nil => exact h
  | cons op ops ih => exact ih (h.step op)

end

end Mode

theorem mode_setup (useMsix : Bool) (size : ℕ) (hasContexts : Bool) :
    Mode useMsix hasContexts (setup useMsix size hasContexts) := by
  cases hasContexts <;> exact ⟨rfl, rfl⟩

/-- The driver takes the completions out in the order in which they were posted, each once. Its head
is the number taken, modulo the size, and its phase that of the lap. A poll takes the next completion
whenever there is one, and an interrupt all that there are. -/
theorem run_taken (useMsix hasContexts : Bool) {size : ℕ} (hsize : 0 < size) (ops : List Op) :
    let ch := (setup useMsix size hasContexts).run ops
    ch.taken = ch.posted.take ch.taken.length ∧
      ch.q.cqHead = ch.taken.length % size ∧ ch.q.cqPhase = lapTag size ch.taken.length ∧
      ch.poll.1 = ch.posted[ch.taken.length]? ∧
      (useMsix = true → hasContexts = true → ∀ arrivals,
        ch.posted <+: (ch.nvmeIrqHandler arrivals).posted ∧
          (ch.nvmeIrqHandler arrivals).taken = (ch.nvmeIrqHandler arrivals).posted) := by
  intro ch
  have hinv : Inv size ch := (inv_setup useMsix hasContexts hsize).run ops
  have hmode : Mode useMsix hasContexts ch := (mode_setup useMsix size hasContexts).run ops
  refine ⟨hinv.taken_eq, hinv.head_eq, hinv.phase_eq, ?_, fun hmsix hctx arrivals => ?_⟩
  · unfold poll
    by_cases hready : ch.q.Ready
    · have hlt := hinv.ready_iff.mp hready
      rw [if_pos hready, getElem?_eq_getElem hlt, ← hinv.next_eq hlt]
    · rw [if_neg hready, List.getElem?_eq_none (not_lt.mp (mt hinv.ready_iff.mpr hready))]
  · refine ⟨ch.posted_nvmeIrqHandler arrivals, (hinv.nvmeIrqHandler arrivals).2 ?_ ?_⟩
    · exact hmode.1.trans hmsix
    · exact hmode.2.trans hctx

/-- A queue of two slots over three laps. -/
theorem run_taken_three :
    ((setup true 2 true).run [.post ⟨1, 0, 0, 0, 0⟩, .post ⟨2, 0, 0, 1, 0⟩, .irq [[⟨3, 0, 0, 0, 0⟩]],
        .post ⟨4, 0, 0, 1, 0⟩, .poll]).taken.map (·.cdw0) = [1, 2, 3, 4] ∧
      ((setup true 2 true).run [.post ⟨1, 0, 0, 0, 0⟩, .post ⟨2, 0, 0, 1, 0⟩,
        .irq [[⟨3, 0, 0, 0, 0⟩]], .post ⟨4, 0, 0, 1, 0⟩, .poll]).q.cqPhase = lapTag 2 4 := by
  have hrun := run_taken true true (show 0 < 2 by decide) [.post ⟨1, 0, 0, 0, 0⟩,
    .post ⟨2, 0, 0, 1, 0⟩, .irq [[⟨3, 0, 0, 0, 0⟩]], .post ⟨4, 0, 0, 1, 0⟩, .poll]
  refine ⟨by decide +kernel, hrun.2.2.1.trans ?_⟩
  rfl

end NvmeChannel

end NovaOS.Drivers
