import NovaOS.Drivers.NvmeQueue

/-!
# NVMe commands and their completions

Reference: `kernel/krdrivers/nvme/nvme.c`.

`nvme_submit_admin_cmd` and `nvme_submit_io_cmd` against a controller that completes the commands it
was given in any order and arbitrarily late. Commands are numbered in the order of their submission;
`answered` records for each posted completion the number of its command and its status code. While a
call waits, the controller and the interrupt handler are active between two tests of its loop.

The polling loops take the next completion for the answer, whatever its `command_id`, and the interrupt
handler finds the waiting call by an identifier that is used again after a lap of the submission queue.
A call is therefore sure to return `0` for its own command only if nothing of an earlier command can
still turn up in its place.
-/

namespace NovaOS.Drivers

open NovaOS.Lib List NvmeChannel Option

/-- A channel with the commands that were put on it: the identifier of each, and the number and the
status code of each completion. -/
structure NvmePort where
  ch : NvmeChannel
  sent : List ℕ
  answered : List (ℕ × ℕ)

namespace NvmePort

def setup (useMsix : Bool) (size : ℕ) (hasContexts : Bool) : NvmePort :=
  ⟨.setup useMsix size hasContexts, [], []⟩

/-- The controller completes command number `i`, once, if there is room for the completion. -/
def complete (p : NvmePort) (i : ℕ) (c : NvmeCqe) : NvmePort :=
  match p.sent[i]? with
  | none => p
  | some cid =>
    if i ∉ p.answered.map Prod.fst ∧ p.ch.posted.length < p.ch.taken.length + p.ch.q.size then
      { p with
        ch := p.ch.post { c with commandId := cid }
        answered := p.answered ++ [(i, c.status / 2)] }
    else p

/-- A command is put on the submission queue. -/
def enqueue (p : NvmePort) (cmd : NvmeSqe) : NvmePort :=
  { p with
    ch := { p.ch with q := p.ch.q.enqueue cmd }
    sent := p.sent ++ [p.ch.q.sqTail] }

/-- `nvme_irq_handler`. -/
def irq (p : NvmePort) : NvmePort := { p with ch := p.ch.nvmeIrqHandler [] }

/-- The context of a command, where there are contexts. -/
def context (p : NvmePort) (cid : ℕ) : Option NvmeCommandContext := p.ch.q.contexts.map fun ctx => ctx cid

/-- The interrupt handler looks at the queue. -/
def interrupts (p : NvmePort) : Bool := p.ch.useMsix && p.ch.q.contexts.isSome

end NvmePort

/-- The two queue pairs of a controller. -/
inductive QueueId where
  | admin
  | io
deriving DecidableEq, Repr

structure NvmeController where
  admin : NvmePort
  io : NvmePort

namespace NvmeController

/-- A controller as the driver has set it up. The admin queue has no contexts. -/
def setup (useMsix : Bool) (adminSize ioSize : ℕ) : NvmeController :=
  ⟨.setup useMsix adminSize false, .setup useMsix ioSize true⟩

def port (s : NvmeController) : QueueId → NvmePort
  | .admin => s.admin
  | .io => s.io

def setPort (s : NvmeController) (k : QueueId) (p : NvmePort) : NvmeController :=
  match k with
  | .admin => { s with admin := p }
  | .io => { s with io := p }

/-- What happens while a call waits, and between the calls. -/
inductive Event where
  | complete (k : QueueId) (i : ℕ) (c : NvmeCqe)
  | irq

def event (s : NvmeController) : Event → NvmeController
  | .complete k i c => s.setPort k ((s.port k).complete i c)
  | .irq => { s with io := s.io.irq }

def events (s : NvmeController) (es : List Event) : NvmeController := es.foldl event s

/-- Whether the calls wait for the interrupt handler. -/
def waitsForIrq (s : NvmeController) : QueueId → Bool
  | .admin => false
  | .io => s.io.interrupts

/-- The polling loop; the call gives up after the last of `turns`. -/
def awaitPolled (k : QueueId) : (turns : List (List Event)) → NvmeController →
    Option NvmeCqe × NvmeController
  | [], s =>
    let (cqe, ch) := (s.port k).ch.poll
    (cqe, s.setPort k { s.port k with ch := ch })
  | turn :: turns, s =>
    match (s.port k).ch.poll with
    | (some cqe, ch) => (some cqe, s.setPort k { s.port k with ch := ch })
    | (none, _) => awaitPolled k turns (s.events turn)

/-- The loop that waits for the interrupt handler. -/
def awaitDone (k : QueueId) (cid : ℕ) : (turns : List (List Event)) → NvmeController →
    Option NvmeCommandContext × NvmeController
  | [], s => (((s.port k).context cid).filter (·.done), s)
  | turn :: turns, s =>
    match ((s.port k).context cid).filter (·.done) with
    | some ctx => (some ctx, s)
    | none => awaitDone k cid turns (s.events turn)

/-- `nvme_submit_admin_cmd` and `nvme_submit_io_cmd`, with `*cqe_out` where it is written. -/
def submitCmd (s : NvmeController) (k : QueueId) (cmd : NvmeSqe) (turns : List (List Event)) :
    (ℤ × Option NvmeCqe) × NvmeController :=
  let cid := (s.port k).ch.q.sqTail
  let s := s.setPort k ((s.port k).enqueue cmd)
  if s.waitsForIrq k then
    match awaitDone k cid turns s with
    | (none, s) => ((-1, none), s)
    | (some ctx, s) => ((if ctx.status ≠ 0 then -1 else 0, some ctx.cqe), s)
  else
    match awaitPolled k turns s with
    | (none, s) => ((-1, none), s)
    | (some cqe, s) => ((if cqe.status / 2 ≠ 0 then -1 else 0, some cqe), s)

/-- `nvme_submit_admin_cmd`. -/
def nvmeSubmitAdminCmd (s : NvmeController) (cmd : NvmeSqe) (turns : List (List Event)) :
    (ℤ × Option NvmeCqe) × NvmeController := s.submitCmd .admin cmd turns

/-- `nvme_submit_io_cmd`. -/
def nvmeSubmitIoCmd (s : NvmeController) (cmd : NvmeSqe) (turns : List (List Event)) :
    (ℤ × Option NvmeCqe) × NvmeController := s.submitCmd .io cmd turns

/-- A run: calls, and what happens between them. -/
inductive Op where
  | admin (cmd : NvmeSqe) (turns : List (List Event))
  | io (cmd : NvmeSqe) (turns : List (List Event))
  | idle (es : List Event)

def step (s : NvmeController) : Op → NvmeController
  | .admin cmd turns => (s.nvmeSubmitAdminCmd cmd turns).2
  | .io cmd turns => (s.nvmeSubmitIoCmd cmd turns).2
  | .idle es => s.events es

def run (s : NvmeController) (ops : List Op) : NvmeController := ops.foldl step s

end NvmeController

/-! ## The completions of a port -/

namespace NvmePort

/-- The completions belong to the commands that were sent, each to another one. -/
structure Inv (size : ℕ) (p : NvmePort) : Prop where
  channel : p.ch.Inv size
  length_eq : p.answered.length = p.ch.posted.length
  entry : ∀ j (h : j < p.ch.posted.length) (h' : j < p.answered.length),
    p.sent[p.answered[j].1]? = some p.ch.posted[j].commandId ∧
      p.ch.posted[j].status / 2 = p.answered[j].2
  nodup : (p.answered.map Prod.fst).Nodup
  tail_lt : p.ch.q.sqTail < size

section Inv

variable {size : ℕ} {p : NvmePort}

theorem inv_setup (useMsix hasContexts : Bool) (hsize : 0 < size) :
    Inv size (setup useMsix size hasContexts) where
  channel := NvmeChannel.inv_setup useMsix hasContexts hsize
  length_eq := rfl
  entry := fun _ h => absurd h (Nat.not_lt_zero _)
  nodup := nodup_nil
  tail_lt := hsize

theorem Inv.size_pos (h : Inv size p) : 0 < size := h.channel.ring.pos

variable {i cid : ℕ}

/-- Only commands that were sent are answered. -/
theorem Inv.answered_lt (h : Inv size p) (hi : i ∈ p.answered.map Prod.fst) :
    i < p.sent.length := by
  obtain ⟨⟨i, code⟩, hmem, rfl⟩ := mem_map.mp hi
  obtain ⟨j, hj, hget⟩ := mem_iff_getElem.mp hmem
  have hentry := (h.entry j (h.length_eq ▸ hj) hj).1
  rw [hget] at hentry
  exact (List.getElem?_eq_some_iff.mp hentry).1

/-- What completing a command does. -/
theorem complete_cases (p : NvmePort) (i : ℕ) (c : NvmeCqe) :
    p.complete i c = p ∨
      ∃ cid, p.sent[i]? = some cid ∧ i ∉ p.answered.map Prod.fst ∧
        p.ch.posted.length < p.ch.taken.length + p.ch.q.size ∧
        p.complete i c = { p with
          ch := p.ch.post { c with commandId := cid }
          answered := p.answered ++ [(i, c.status / 2)] } := by
  unfold complete
  cases hsent : p.sent[i]? with
  | none => exact .inl rfl
  | some cid =>
    dsimp only
    split
    · rename_i hguard
      exact .inr ⟨cid, rfl, hguard.1, hguard.2, rfl⟩
    · exact .inl rfl

section

variable (h : Inv size p)
include h

theorem Inv.complete (i : ℕ) (c : NvmeCqe) : Inv size (p.complete i c) := by
  rcases p.complete_cases i c with heq | ⟨cid, hsent, hnew, hroom, heq⟩
  · rw [heq]
    exact h
  rw [heq]
  obtain ⟨hposted, htail, -⟩ := post_of_room hroom { c with commandId := cid }
  refine ⟨h.channel.post _, ?_, ?_, ?_, ?_⟩
  · rw [hposted, length_append, length_append, h.length_eq]
    rfl
  · intro j hj hj'
    simp only [hposted] at hj ⊢
    rcases lt_or_ge j p.ch.posted.length with hold | hlast
    · have hold' : j < p.answered.length := h.length_eq ▸ hold
      rw [getElem_append_left hold, getElem_append_left hold']
      exact h.entry j hold hold'
    · have hj0 : j = p.ch.posted.length := by
        rw [length_append, length_singleton] at hj
        omega
      have hj0' : j = p.answered.length := hj0.trans h.length_eq.symm
      rw [getElem_concat_length hj0', getElem_concat_length hj0]
      refine ⟨hsent, ?_⟩
      dsimp only
      rw [lapTag]
      omega
  · rw [map_append]
    refine nodup_append.mpr ⟨h.nodup, nodup_singleton _, fun a ha b hb hab => hnew ?_⟩
    have hbi : b = i := mem_singleton.mp hb
    rw [← hbi, ← hab]
    exact ha
  · rw [htail]
    exact h.tail_lt

theorem Inv.enqueue (cmd : NvmeSqe) : Inv size (p.enqueue cmd) where
  channel := h.channel.enqueue cmd
  length_eq := h.length_eq
  entry := by
    intro j hj hj'
    obtain ⟨hsent, hstatus⟩ := h.entry j hj hj'
    refine ⟨?_, hstatus⟩
    exact (getElem?_append_left (List.getElem?_eq_some_iff.mp hsent).1).trans hsent
  nodup := h.nodup
  tail_lt := by
    change (p.ch.q.sqTail + 1) % p.ch.q.size < size
    rw [h.channel.size_eq]
    exact Nat.mod_lt _ h.size_pos

/-- The interrupt handler either is off or takes everything out. -/
theorem Inv.irq_cases :
    (p.irq = p ∧ p.interrupts = false) ∨
      (Drained p.ch p.irq.ch ∧ p.interrupts = true) := by
  cases hmsix : p.ch.useMsix with
  | false =>
    refine .inl ⟨?_, by rw [interrupts, hmsix, Bool.false_and]⟩
    rw [irq, nvmeIrqHandler, if_pos (.inl hmsix)]
  | true =>
    cases hctx : p.ch.q.contexts.isSome with
    | false =>
      refine .inl ⟨?_, by rw [interrupts, hctx, Bool.and_false]⟩
      rw [irq, nvmeIrqHandler, if_pos (.inr (by simpa using hctx))]
    | true =>
      exact .inr ⟨h.channel.nvmeIrqHandler_nil hmsix hctx, by rw [interrupts, hmsix, hctx]; rfl⟩

/-- Taking completions out. -/
theorem Inv.setChannel {ch : NvmeChannel} (hch : ch.Inv size) (hposted : ch.posted = p.ch.posted)
    (htail : ch.q.sqTail = p.ch.q.sqTail) : Inv size { p with ch := ch } where
  channel := hch
  length_eq := h.length_eq.trans (congrArg length hposted.symm)
  entry := by
    intro j hj hj'
    simp only [hposted] at hj ⊢
    exact h.entry j hj hj'
  nodup := h.nodup
  tail_lt := htail ▸ h.tail_lt

theorem Inv.irq : Inv size p.irq := by
  rcases h.irq_cases with ⟨heq, -⟩ | ⟨hdrained, -⟩
  · rw [heq]
    exact h
  · exact h.setChannel (h.channel.nvmeIrqHandler []).1 hdrained.posted_eq hdrained.sqTail_eq

/-- A poll takes the completion behind those taken. -/
theorem Inv.poll_cases :
    (p.ch.poll = (none, p.ch) ∧ p.ch.taken.length = p.ch.posted.length) ∨
      ∃ hlt : p.ch.taken.length < p.ch.posted.length,
        p.ch.poll.1 = some p.ch.posted[p.ch.taken.length] ∧ p.ch.poll.2.posted = p.ch.posted ∧
          p.ch.poll.2.q.sqTail = p.ch.q.sqTail := by
  unfold poll
  by_cases hready : p.ch.q.Ready
  · have hlt := h.channel.ready_iff.mp hready
    rw [if_pos hready]
    exact .inr ⟨hlt, congrArg some (h.channel.next_eq hlt), rfl, rfl⟩
  · rw [if_neg hready]
    exact .inl ⟨rfl, le_antisymm h.channel.ring.taken_le
      (not_lt.mp (mt h.channel.ready_iff.mpr hready))⟩

theorem Inv.poll : Inv size { p with ch := p.ch.poll.2 } := by
  rcases h.poll_cases with ⟨heq, -⟩ | ⟨-, -, hposted, htail⟩
  · rw [heq]
    exact h
  · exact h.setChannel h.channel.poll hposted htail

/-- A completion posted when none is waiting. -/
theorem Inv.complete_next (hdrained : p.ch.taken.length = p.ch.posted.length)
    (hsent : p.sent[i]? = some cid) (hnew : i ∉ p.answered.map Prod.fst) (c : NvmeCqe) :
    (p.complete i c).answered = p.answered ++ [(i, c.status / 2)] ∧
      ∃ e : NvmeCqe, (p.complete i c).ch.posted = p.ch.posted ++ [e] ∧ e.commandId = cid ∧
        e.status / 2 = c.status / 2 := by
  have hroom : p.ch.posted.length < p.ch.taken.length + p.ch.q.size := by
    have hpos := h.size_pos
    rw [h.channel.size_eq]
    omega
  rw [NvmePort.complete, hsent]
  dsimp only
  rw [if_pos ⟨hnew, hroom⟩]
  refine ⟨rfl, _, (post_of_room hroom _).1, rfl, ?_⟩
  dsimp only
  rw [lapTag]
  omega

end

end Inv

/-! ## While a call waits -/

/-- A later state of the port: more completions, and no new command. -/
structure Later (size : ℕ) (p₀ p : NvmePort) : Prop where
  inv : p.Inv size
  sent_eq : p.sent = p₀.sent
  answered : p₀.answered <+: p.answered
  posted : p₀.ch.posted <+: p.ch.posted
  interrupts_eq : p.interrupts = p₀.interrupts

section Later

variable {size : ℕ} {p₀ p : NvmePort}

theorem Inv.later (h : Inv size p) : Later size p p := ⟨h, rfl, prefix_rfl, prefix_rfl, rfl⟩

theorem Later.complete (h : Later size p₀ p) (i : ℕ) (c : NvmeCqe) :
    Later size p₀ (p.complete i c) := by
  have hinv := h.inv.complete i c
  rcases p.complete_cases i c with heq | ⟨cid, -, -, hroom, heq⟩
  · rw [heq]
    exact h
  rw [heq] at hinv ⊢
  obtain ⟨hposted, -, hctx, hmsix⟩ := post_of_room hroom { c with commandId := cid }
  refine ⟨hinv, h.sent_eq, h.answered.trans (prefix_append _ _), h.posted.trans ?_, ?_⟩
  · rw [hposted]
    exact prefix_append _ _
  · rw [← h.interrupts_eq, interrupts, interrupts]
    rw [hctx, hmsix]

theorem Later.irq (h : Later size p₀ p) : Later size p₀ p.irq := by
  have hmode : Mode p.ch.useMsix p.ch.q.contexts.isSome (p.ch.nvmeIrqHandler []) :=
    Mode.nvmeIrqHandler ⟨rfl, rfl⟩ []
  refine ⟨h.inv.irq, h.sent_eq, h.answered, h.posted.trans (p.ch.posted_nvmeIrqHandler []), ?_⟩
  rw [← h.interrupts_eq, interrupts, interrupts, NvmePort.irq]
  rw [hmode.1, hmode.2]

variable {j : ℕ}

/-- A completion posted meanwhile belongs to a command that was outstanding. -/
theorem Later.new_answer (h : Later size p₀ p) (hj : j < p.answered.length)
    (hnew : p₀.answered.length ≤ j) : p.answered[j].1 ∉ p₀.answered.map Prod.fst := by
  obtain ⟨new, hnews⟩ := h.answered
  have hnodup := h.inv.nodup
  simp only [← hnews] at hnodup ⊢
  rw [map_append, nodup_append] at hnodup
  rw [getElem_append_right hnew]
  intro hold
  exact hnodup.2.2 _ hold _ (mem_map_of_mem (getElem_mem _)) rfl

/-- A completion posted meanwhile, when every earlier command with its identifier was answered,
belongs to the last command. -/
theorem Later.answered_last {cmd : NvmeSqe} (h : Later size (p₀.enqueue cmd) p)
    (hj : j < p.ch.posted.length) (hnew : p₀.answered.length ≤ j)
    (hold : ∀ i, p₀.sent[i]? = some p.ch.posted[j].commandId → i ∈ p₀.answered.map Prod.fst) :
    (p₀.sent.length, p.ch.posted[j].status / 2) ∈ p.answered := by
  have hj' : j < p.answered.length := h.inv.length_eq ▸ hj
  obtain ⟨hsent, hcode⟩ := h.inv.entry j hj hj'
  have hfresh := h.new_answer hj' hnew
  rw [h.sent_eq] at hsent
  have hnum : p.answered[j].1 = p₀.sent.length := by
    have hlt := (List.getElem?_eq_some_iff.mp hsent).1
    have hle : p.answered[j].1 ≤ p₀.sent.length := by
      change _ < (p₀.sent ++ [p₀.ch.q.sqTail]).length at hlt
      rw [length_append] at hlt
      exact Nat.lt_succ_iff.mp hlt
    rcases lt_or_ge p.answered[j].1 p₀.sent.length with hearlier | hge
    · refine absurd (hold _ ?_) hfresh
      rw [← hsent]
      exact (getElem?_append_left hearlier).symm
    · exact le_antisymm hle hge
  rw [← hnum, hcode]
  exact getElem_mem hj'

end Later

/-! ## When a call answers for its own command -/

/-- The completions that were posted and not yet taken. -/
def waiting (p : NvmePort) : List NvmeCqe := p.ch.posted.drop p.ch.taken.length

/-- A polling call takes the next completion: it is a failure, or none is waiting and no command is
outstanding. -/
def FreshPolled (p : NvmePort) : Prop :=
  match p.waiting with
  | [] => ∀ i < p.sent.length, i ∈ p.answered.map Prod.fst
  | c :: _ => c.status / 2 ≠ 0

/-- A call that waits for the handler gets the last completion with its identifier: no earlier command
with it is outstanding, and the last completion for one that is waiting is a failure. -/
def FreshIrq (p : NvmePort) : Prop :=
  (∀ i, p.sent[i]? = some p.ch.q.sqTail → i ∈ p.answered.map Prod.fst) ∧
    ∀ c, (p.waiting.filter fun c => c.commandId == p.ch.q.sqTail).getLast? = some c →
      c.status / 2 ≠ 0

section Fresh

variable {size : ℕ} {p p' : NvmePort} {cmd : NvmeSqe}

theorem taken_complete (p : NvmePort) (i : ℕ) (c : NvmeCqe) :
    (p.complete i c).ch.taken = p.ch.taken ∧ (p.complete i c).ch.q.contexts = p.ch.q.contexts := by
  rcases p.complete_cases i c with heq | ⟨cid, -, -, hroom, heq⟩
  · rw [heq]
    exact ⟨rfl, rfl⟩
  · rw [heq]
    exact ⟨(p.ch.post_length _).1, (post_of_room hroom _).2.2.1⟩

/-- Under `FreshPolled` a success that a poll finds is that of the command just sent. -/
theorem FreshPolled.answered (h : p.FreshPolled) (hlater : Later size (p.enqueue cmd) p')
    (hlen : p.answered.length = p.ch.posted.length)
    (hlt : p.ch.taken.length < p'.ch.posted.length)
    (hcode : p'.ch.posted[p.ch.taken.length].status / 2 = 0) :
    (p.sent.length, 0) ∈ p'.answered := by
  have hposted : p.ch.posted <+: p'.ch.posted := hlater.posted
  unfold FreshPolled waiting at h
  split at h
  · rename_i hnone
    have hle : p.answered.length ≤ p.ch.taken.length := by
      rw [hlen]
      exact drop_eq_nil_iff.mp hnone
    have hlast := hlater.answered_last hlt hle fun i hi =>
      h i (List.getElem?_eq_some_iff.mp hi).1
    rwa [hcode] at hlast
  · rename_i c rest hnext
    -- the completion that was waiting is the one that is found
    have hold : p.ch.taken.length < p.ch.posted.length := not_le.mp fun hge =>
      nomatch (drop_of_length_le hge).symm.trans hnext
    rw [drop_eq_getElem_cons hold, hposted.getElem hold] at hnext
    rw [← (cons.inj hnext).1] at h
    exact absurd hcode h

/-- While a call waits for the handler: the context is untouched, or everything that was waiting has
been taken and a success in the context is that of the command just sent. -/
structure AwaitsIrq (size : ℕ) (p : NvmePort) (cmd : NvmeSqe) (p' : NvmePort) : Prop where
  later : Later size (p.enqueue cmd) p'
  context : (p'.ch.taken = p.ch.taken ∧ ∀ ctx ∈ p'.context p.ch.q.sqTail, ctx.done = false) ∨
    (p.ch.posted.length ≤ p'.ch.taken.length ∧
      ∀ ctx ∈ p'.context p.ch.q.sqTail, ctx.done = true → ctx.status = 0 →
        (p.sent.length, 0) ∈ p'.answered)

/-- The context of a command is reset when it is sent. -/
theorem done_context_enqueue {ctx : NvmeCommandContext}
    (h : ctx ∈ (p.enqueue cmd).context p.ch.q.sqTail) : ctx.done = false := by
  obtain ⟨ctxs, hctxs, rfl⟩ := mem_map.mp h
  have heq := p.ch.q.contexts_enqueue cmd
  obtain ⟨old, -, rfl⟩ := map_eq_some_iff.mp (heq.symm.trans hctxs)
  rw [Function.update_self]

theorem AwaitsIrq.complete (h : AwaitsIrq size p cmd p') (i : ℕ) (c : NvmeCqe) :
    AwaitsIrq size p cmd (p'.complete i c) where
  later := h.later.complete i c
  context := by
    obtain ⟨htaken, hctx⟩ := p'.taken_complete i c
    have hanswered : p'.answered <+: (p'.complete i c).answered :=
      (h.later.inv.later.complete i c).answered
    rw [htaken, NvmePort.context, hctx]
    refine h.context.imp_right fun hdone => ⟨hdone.1, fun ctx hmem hd hs => ?_⟩
    exact hanswered.subset (hdone.2 ctx hmem hd hs)

/-- A completion posted meanwhile with the identifier of the command is its own. -/
theorem FreshIrq.answered (h : p.FreshIrq) (hlen : p.answered.length = p.ch.posted.length)
    (hlater : Later size (p.enqueue cmd) p') {m : ℕ} (hm : p.ch.posted.length ≤ m) {c : NvmeCqe}
    (hc : c ∈ p'.ch.posted.drop m) (hcid : c.commandId = p.ch.q.sqTail) :
    (p.sent.length, c.status / 2) ∈ p'.answered := by
  obtain ⟨j, hj, rfl⟩ := mem_drop_iff_getElem.mp hc
  have hj' : m + j < p'.ch.posted.length := by omega
  refine hlater.answered_last hj' (by omega) fun i hi => h.1 i ?_
  rw [hi, hcid]

theorem AwaitsIrq.irq (hinv : Inv size p) (hfresh : p.FreshIrq) (h : AwaitsIrq size p cmd p') :
    AwaitsIrq size p cmd p'.irq where
  later := h.later.irq
  context := by
    rcases h.later.inv.irq_cases with ⟨heq, -⟩ | ⟨hdrained, -⟩
    · rw [heq]
      exact h.context
    have hposted : p.ch.posted <+: p'.ch.posted := h.later.posted
    refine .inr ⟨?_, fun ctx hctx hdone hstatus => ?_⟩
    · rw [hdrained.taken_eq]
      exact hposted.length_le
    obtain ⟨ctxs', hctxs', rfl⟩ := mem_map.mp hctx
    obtain ⟨ctxs, hctxs, rfl⟩ := map_eq_some_iff.mp (hdrained.contexts_eq.symm.trans hctxs')
    rw [h.later.inv.channel.size_eq, filled_apply hinv.tail_lt] at hdone hstatus
    cases hlast : ((p'.ch.posted.drop p'.ch.taken.length).filter fun c =>
        c.commandId == p.ch.q.sqTail).getLast? with
    | none =>
      -- the handler has not written to the context
      rw [hlast] at hdone hstatus
      have hmem : ctxs p.ch.q.sqTail ∈ p'.context p.ch.q.sqTail :=
        mem_map.mpr ⟨ctxs, hctxs, rfl⟩
      rcases h.context with ⟨-, hnot⟩ | ⟨-, hown⟩
      · exact nomatch hdone.symm.trans (hnot _ hmem)
      · exact hown _ hmem hdone hstatus
    | some c =>
      rw [hlast] at hstatus
      have hcode : c.status / 2 = 0 := hstatus
      have hmem := mem_filter.mp (mem_of_getLast? hlast)
      have hcid : c.commandId = p.ch.q.sqTail := beq_iff_eq.mp hmem.2
      have hown : ∀ {m}, p.ch.posted.length ≤ m → c ∈ p'.ch.posted.drop m →
          (p.sent.length, 0) ∈ p'.answered := by
        intro m hm hc
        have hans := hfresh.answered hinv.length_eq h.later hm hc hcid
        rwa [hcode] at hans
      rcases h.context with ⟨htaken, -⟩ | ⟨hle, -⟩
      · obtain ⟨new, hnew⟩ := hposted
        rw [htaken, ← hnew, drop_append_of_le_length hinv.channel.ring.taken_le,
          filter_append, getLast?_append] at hlast
        rcases or_eq_some_iff.mp hlast with hlast | ⟨-, hlast⟩
        · refine hown le_rfl ?_
          rw [← hnew, drop_left]
          exact (mem_filter.mp (mem_of_getLast? hlast)).1
        · exact absurd hcode (hfresh.2 c hlast)
      · exact hown hle hmem.1

end Fresh

end NvmePort

namespace NvmeController

variable {s : NvmeController} {k : QueueId}

theorem port_setPort (s : NvmeController) (k : QueueId) (p : NvmePort) (k' : QueueId) :
    (s.setPort k p).port k' = if k' = k then p else s.port k' := by
  cases k <;> cases k' <;> rfl

/-- The controller with a command sent. -/
abbrev sendTo (s : NvmeController) (k : QueueId) (cmd : NvmeSqe) : NvmeController :=
  s.setPort k ((s.port k).enqueue cmd)

/-- What an event does to a port. -/
theorem port_event (s : NvmeController) (e : Event) (k : QueueId) :
    (s.event e).port k = s.port k ∨ (∃ i c, (s.event e).port k = (s.port k).complete i c) ∨
      k = .io ∧ (s.event e).port k = (s.port k).irq := by
  cases e with
  | complete k' i c =>
    rw [event, port_setPort]
    by_cases hk : k = k'
    · rw [if_pos hk, hk]
      exact .inr (.inl ⟨i, c, rfl⟩)
    · rw [if_neg hk]
      exact .inl rfl
  | irq =>
    cases k with
    | admin => exact .inl rfl
    | io => exact .inr (.inr ⟨rfl, rfl⟩)

variable {cid : ℕ} {turn : List Event} {turns : List (List Event)}

section Await

variable {J : NvmeController → Prop} (hevents : ∀ s es, J s → J (s.events es))
include hevents

/-- A polling loop ends with the poll of a state that the events have led to. -/
theorem awaitPolled_eq (h : J s) (turns : List (List Event)) :
    ∃ s1, J s1 ∧ awaitPolled k turns s = ((s1.port k).ch.poll.1,
      s1.setPort k { s1.port k with ch := (s1.port k).ch.poll.2 }) := by
  induction turns generalizing s with
  | nil => exact ⟨s, h, rfl⟩
  | cons turn turns ih =>
    rw [awaitPolled]
    split
    · rename_i hpoll
      exact ⟨s, h, by rw [hpoll]⟩
    · exact ih (hevents s turn h)

/-- So does a loop that waits for the handler, with the context there. -/
theorem awaitDone_eq (h : J s) (turns : List (List Event)) :
    ∃ s1, J s1 ∧ awaitDone k cid turns s = (((s1.port k).context cid).filter (·.done), s1) := by
  induction turns generalizing s with
  | nil => exact ⟨s, h, rfl⟩
  | cons turn turns ih =>
    rw [awaitDone]
    split
    · rename_i hctx
      exact ⟨s, h, by rw [hctx]⟩
    · exact ih (hevents s turn h)

end Await

section Events

variable {P : NvmePort → Prop} (hcomplete : ∀ p i c, P p → P (p.complete i c))
  (hirq : k = .io → ∀ p, P p → P p.irq) (h : P (s.port k))
include hcomplete hirq h

/-- What completions and interrupts keep holds after any events. -/
theorem events_induction (es : List Event) : P ((s.events es).port k) := by
  induction es generalizing s with
  | nil => exact h
  | cons e es ih =>
    refine ih ?_
    rcases s.port_event e k with heq | ⟨i, c, heq⟩ | ⟨hk, heq⟩
    · rw [heq]
      exact h
    · rw [heq]
      exact hcomplete _ i c h
    · rw [heq]
      exact hirq hk _ h

variable {s' : NvmeController}

/-- Where a polling loop that leaves with a completion found it. -/
theorem awaitPolled_some {cqe : NvmeCqe} (hr : awaitPolled k turns s = (some cqe, s')) :
    ∃ p, P p ∧ p.ch.poll.1 = some cqe ∧ s'.port k = { p with ch := p.ch.poll.2 } := by
  obtain ⟨s1, hs1, heq⟩ := awaitPolled_eq (J := fun s => P (s.port k))
    (fun _ es hs => events_induction hcomplete hirq hs es) h turns
  obtain ⟨hpoll, hs'⟩ := Prod.mk.inj (heq.symm.trans hr)
  refine ⟨s1.port k, hs1, hpoll, ?_⟩
  rw [← hs', port_setPort, if_pos rfl]

/-- Where a loop that waits for the handler leaves with a context. -/
theorem awaitDone_some {ctx : NvmeCommandContext} (hr : awaitDone k cid turns s = (some ctx, s')) :
    P (s'.port k) ∧ (s'.port k).context cid = some ctx ∧ ctx.done = true := by
  obtain ⟨s1, hs1, heq⟩ := awaitDone_eq (J := fun s => P (s.port k))
    (fun _ es hs => events_induction hcomplete hirq hs es) h turns
  obtain ⟨hctx, rfl⟩ := Prod.mk.inj (heq.symm.trans hr)
  exact ⟨hs1, filter_eq_some_iff.mp hctx⟩

end Events

theorem awaitPolled_cons (h : (s.port k).ch.poll.1 = none) :
    awaitPolled k (turn :: turns) s = awaitPolled k turns (s.events turn) := by
  rw [awaitPolled.eq_def]
  dsimp only
  split
  · rename_i heq
    rw [heq] at h
    cases h
  · rfl

theorem awaitDone_cons (h : ((s.port k).context cid).filter (·.done) = none) :
    awaitDone k cid (turn :: turns) s = awaitDone k cid turns (s.events turn) := by
  rw [awaitDone.eq_def]
  dsimp only
  rw [h]

/-! ## Every reachable state -/

/-- The ports are in order; `sizes` are the sizes of their queues. -/
def Inv (sizes : QueueId → ℕ) (s : NvmeController) : Prop := ∀ k, (s.port k).Inv (sizes k)

section Inv

variable {sizes : QueueId → ℕ}

section

variable (h : Inv sizes s)
include h

theorem Inv.setPort {p : NvmePort} (hp : p.Inv (sizes k)) : Inv sizes (s.setPort k p) := by
  intro k'
  rw [port_setPort]
  split
  · rename_i hk
    rw [hk]
    exact hp
  · exact h k'

theorem Inv.events (es : List Event) : Inv sizes (s.events es) := by
  intro k
  refine events_induction (P := NvmePort.Inv (sizes k)) ?_ ?_ (h k) es
  · exact fun p i c hp => hp.complete i c
  · exact fun _ p hp => hp.irq

theorem Inv.submitCmd (cmd : NvmeSqe) (turns : List (List Event)) :
    Inv sizes (s.submitCmd k cmd turns).2 := by
  have hsent := h.setPort ((h k).enqueue cmd)
  have hevents : ∀ s es, Inv sizes s → Inv sizes (s.events es) := fun _ es hs => hs.events es
  unfold NvmeController.submitCmd
  dsimp only
  split
  · obtain ⟨s1, hs1, heq⟩ := awaitDone_eq hevents hsent turns
    rw [heq]
    split <;> rename_i hr <;> exact (Prod.mk.inj hr).2 ▸ hs1
  · obtain ⟨s1, hs1, heq⟩ := awaitPolled_eq hevents hsent turns
    rw [heq]
    split <;> rename_i hr <;> exact (Prod.mk.inj hr).2 ▸ hs1.setPort (hs1 k).poll

theorem Inv.run (ops : List Op) : Inv sizes (s.run ops) := by
  induction ops generalizing s with
  | nil => exact h
  | cons op ops ih =>
    refine ih ?_
    cases op with
    | admin cmd turns => exact h.submitCmd cmd turns
    | io cmd turns => exact h.submitCmd cmd turns
    | idle es => exact h.events es

end

theorem inv_setup (useMsix : Bool) {adminSize ioSize : ℕ} (hadmin : 0 < adminSize) (hio : 0 < ioSize) :
    Inv (fun k => if k = .admin then adminSize else ioSize) (setup useMsix adminSize ioSize) := by
  intro k
  cases k with
  | admin => exact NvmePort.inv_setup useMsix false hadmin
  | io => exact NvmePort.inv_setup useMsix true hio

end Inv

/-! ## Whose success a call reports -/

/-- Nothing of an earlier command can turn up for the next call on the queue. -/
def Fresh (s : NvmeController) (k : QueueId) : Prop :=
  if s.waitsForIrq k then (s.port k).FreshIrq else (s.port k).FreshPolled

/-- The next call on the queue reports a success only when its own command has been completed with
success, whatever the controller does meanwhile. -/
def Trustworthy (s : NvmeController) (k : QueueId) (cmd : NvmeSqe) : Prop :=
  ∀ turns, (s.submitCmd k cmd turns).1.1 = 0 →
    ((s.port k).sent.length, 0) ∈ ((s.submitCmd k cmd turns).2.port k).answered

section Trustworthy

variable {sizes : QueueId → ℕ} {cmd : NvmeSqe}

theorem waitsForIrq_enqueue (s : NvmeController) (k : QueueId) (cmd : NvmeSqe) :
    (s.sendTo k cmd).waitsForIrq k = s.waitsForIrq k := by
  cases k with
  | admin => rfl
  | io =>
    change (s.io.ch.useMsix && ((s.io.ch.q.enqueue cmd).contexts).isSome) = _
    rw [NvmeQueue.contexts_enqueue, NvmeQueue.isSome_setContext]
    rfl

/-- A call that polls. -/
theorem submitCmd_polled (hoff : s.waitsForIrq k = false) (cmd : NvmeSqe)
    (turns : List (List Event)) :
    s.submitCmd k cmd turns =
      match awaitPolled k turns (s.sendTo k cmd) with
      | (none, s) => ((-1, none), s)
      | (some cqe, s) => ((if cqe.status / 2 ≠ 0 then -1 else 0, some cqe), s) := by
  rw [submitCmd, waitsForIrq_enqueue, hoff, if_neg Bool.false_ne_true]

/-- A call that waits for the handler. -/
theorem submitCmd_irq (hon : s.waitsForIrq k = true) (cmd : NvmeSqe) (turns : List (List Event)) :
    s.submitCmd k cmd turns =
      match awaitDone k (s.port k).ch.q.sqTail turns (s.sendTo k cmd) with
      | (none, s) => ((-1, none), s)
      | (some ctx, s) => ((if ctx.status ≠ 0 then -1 else 0, some ctx.cqe), s) := by
  rw [submitCmd, waitsForIrq_enqueue, hon, if_pos rfl]

theorem port_enqueue (s : NvmeController) (k : QueueId) (cmd : NvmeSqe) :
    (s.sendTo k cmd).port k = (s.port k).enqueue cmd := by
  rw [port_setPort, if_pos rfl]

theorem trustworthy_polled (h : Inv sizes s) (hoff : s.waitsForIrq k = false)
    (hfresh : (s.port k).FreshPolled) (cmd : NvmeSqe) : s.Trustworthy k cmd := by
  intro turns hret
  rw [submitCmd_polled hoff] at hret ⊢
  rcases hawait : awaitPolled k turns (s.sendTo k cmd) with ⟨_ | cqe, s'⟩
  · rw [hawait] at hret
    exact nomatch show (-1 : ℤ) = 0 from hret
  rw [hawait] at hret
  have hcode : cqe.status / 2 = 0 := by
    by_contra hne
    exact nomatch (if_pos hne).symm.trans hret
  -- nothing is taken from the queue until the poll succeeds
  let P (p : NvmePort) : Prop :=
    ((s.port k).enqueue cmd).Later (sizes k) p ∧ p.ch.taken = (s.port k).ch.taken
  have hirq : k = .io → ∀ p, P p → P p.irq := by
    intro hk p hp
    rcases hp.1.inv.irq_cases with ⟨heq, -⟩ | ⟨-, hon⟩
    · rw [heq]
      exact hp
    · subst hk
      exact nomatch (hp.1.interrupts_eq.symm.trans hon).symm.trans
        ((s.waitsForIrq_enqueue .io cmd).trans hoff)
  have hstart : P ((s.sendTo k cmd).port k) := by
    rw [port_enqueue]
    exact ⟨((h k).enqueue cmd).later, rfl⟩
  obtain ⟨p, ⟨hlater, htaken⟩, hpoll, hfinal⟩ := awaitPolled_some
    (fun p i c hp => ⟨hp.1.complete i c, (p.taken_complete i c).1.trans hp.2⟩) hirq hstart hawait
  rcases hlater.inv.poll_cases with ⟨hnone, -⟩ | ⟨hlt, hsome, -⟩
  · rw [hnone] at hpoll
    cases hpoll
  · have hcqe := mem_unique hsome hpoll
    rw [hfinal]
    change _ ∈ p.answered
    simp only [htaken] at hlt hcqe
    exact hfresh.answered hlater (h k).length_eq hlt (hcqe ▸ hcode)

theorem trustworthy_irq (h : Inv sizes s) (hon : s.waitsForIrq k = true)
    (hfresh : (s.port k).FreshIrq) (cmd : NvmeSqe) : s.Trustworthy k cmd := by
  intro turns hret
  rw [submitCmd_irq hon] at hret ⊢
  rcases hawait : awaitDone k (s.port k).ch.q.sqTail turns (s.sendTo k cmd)
    with ⟨_ | ctx, s'⟩
  · rw [hawait] at hret
    exact nomatch show (-1 : ℤ) = 0 from hret
  rw [hawait] at hret
  have hstatus : ctx.status = 0 := by
    by_contra hne
    exact nomatch (if_pos hne).symm.trans hret
  have hstart : NvmePort.AwaitsIrq (sizes k) (s.port k) cmd ((s.sendTo k cmd).port k) := by
    rw [port_enqueue]
    exact ⟨((h k).enqueue cmd).later, .inl ⟨rfl, fun _ => NvmePort.done_context_enqueue⟩⟩
  obtain ⟨hawaits, hctx, hdone⟩ := awaitDone_some (fun p i c hp => hp.complete i c)
    (fun _ p hp => hp.irq (h k) hfresh) hstart hawait
  rcases hawaits.context with ⟨-, hnot⟩ | ⟨-, hown⟩
  · exact nomatch hdone.symm.trans (hnot ctx hctx)
  · exact hown ctx hctx hdone hstatus

/-! ## What goes wrong otherwise -/

/-- A completion that reports success. -/
def successCqe : NvmeCqe := ⟨0, 0, 0, 0, 0⟩

/-- The command of the next call has no completion yet. -/
theorem unanswered (h : Inv sizes s) (k : QueueId) (code : ℕ) :
    ((s.port k).sent.length, code) ∉ (s.port k).answered := fun hmem =>
  absurd ((h k).answered_lt (mem_map_of_mem hmem)) (lt_irrefl _)

/-- What trust says about a poll that succeeds in the end. -/
theorem Trustworthy.polled (h : s.Trustworthy k cmd) (hoff : s.waitsForIrq k = false)
    (turns : List (List Event)) {s' : NvmeController} {cqe : NvmeCqe}
    (hawait : awaitPolled k turns (s.sendTo k cmd) = awaitPolled k [] s')
    (hpoll : (s'.port k).ch.poll.1 = some cqe) (hcode : cqe.status / 2 = 0) :
    ((s.port k).sent.length, 0) ∈ (s'.port k).answered := by
  have hend : awaitPolled k [] s' =
      (some cqe, s'.setPort k { s'.port k with ch := (s'.port k).ch.poll.2 }) := by
    rw [← hpoll]
    rfl
  have hcall := h turns
  rw [submitCmd_polled hoff, hawait, hend] at hcall
  have hans := hcall (if_neg (not_not.mpr hcode))
  rw [port_setPort, if_pos rfl] at hans
  exact hans

theorem fresh_of_trustworthy_polled (h : Inv sizes s) (hoff : s.waitsForIrq k = false)
    (htrust : s.Trustworthy k cmd) : (s.port k).FreshPolled := by
  have hport := port_enqueue s k cmd
  have hinv := (h k).enqueue cmd
  set p := (s.port k).enqueue cmd
  by_contra hfresh
  unfold NvmePort.FreshPolled NvmePort.waiting at hfresh
  split at hfresh
  · -- an outstanding command is completed while the call waits
    rename_i hnone
    push Not at hfresh
    obtain ⟨i, hi, hnew⟩ := hfresh
    have hlen : p.ch.taken.length = p.ch.posted.length :=
      le_antisymm hinv.channel.ring.taken_le (drop_eq_nil_iff.mp hnone)
    have hsent : p.sent[i]? = some (s.port k).sent[i] :=
      (getElem?_append_left hi).trans (getElem?_eq_getElem hi)
    obtain ⟨hanswered, e, hposted, -, hcode⟩ := hinv.complete_next hlen hsent hnew successCqe
    have htaken := (p.taken_complete i successCqe).1
    have hevent : ((s.sendTo k cmd).events [.complete k i successCqe]).port k =
        p.complete i successCqe := by
      change ((s.setPort k _).setPort k _).port k = _
      rw [port_setPort, if_pos rfl, hport]
    have hempty : ((s.sendTo k cmd).port k).ch.poll.1 = none := by
      rcases hinv.poll_cases with ⟨hpoll, _⟩ | ⟨hlt, _⟩
      · rw [hport, hpoll]
      · exact absurd hlen hlt.ne
    rcases (hinv.complete i successCqe).poll_cases with ⟨_, hnone'⟩ | ⟨_, hsome, _⟩
    · rw [hposted, htaken, length_append, length_singleton] at hnone'
      omega
    · simp only [hposted, htaken, hlen, getElem_concat_length] at hsome
      have hans := htrust.polled hoff _ (awaitPolled_cons hempty) (by rw [hevent]; exact hsome) hcode
      rw [hevent, hanswered] at hans
      rcases mem_append.mp hans with hold | hlast
      · exact unanswered h k 0 hold
      · have heq := congrArg Prod.fst (mem_singleton.mp hlast)
        exact absurd heq.symm hi.ne
  · -- a success is waiting already
    rename_i c rest hnext
    have hlt : (s.port k).ch.taken.length < (s.port k).ch.posted.length := not_le.mp fun hge =>
      nomatch (drop_of_length_le hge).symm.trans hnext
    rw [drop_eq_getElem_cons hlt] at hnext
    rcases hinv.poll_cases with ⟨_, hnone⟩ | ⟨_, hsome, _⟩
    · exact absurd hnone hlt.ne
    · have hans := htrust.polled hoff [] rfl (by rw [hport]; exact hsome)
        ((cons.inj hnext).1 ▸ not_not.mp hfresh)
      rw [hport] at hans
      exact unanswered h k 0 hans

/-- What trust says about a handler that fills the context of the call. -/
theorem Trustworthy.irq (h : s.Trustworthy k cmd) (hon : s.waitsForIrq k = true)
    (turn : List Event) {ctx : NvmeCommandContext}
    (hctx : (((s.sendTo k cmd).events turn).port k).context
      (s.port k).ch.q.sqTail = some ctx) (hdone : ctx.done = true) (hstatus : ctx.status = 0) :
    ((s.port k).sent.length, 0) ∈
      (((s.sendTo k cmd).events turn).port k).answered := by
  have hstart : (((s.sendTo k cmd).port k).context
      (s.port k).ch.q.sqTail).filter (·.done) = none := by
    rw [port_enqueue]
    refine filter_eq_none_iff.mpr fun ctx hmem => ?_
    rw [NvmePort.done_context_enqueue hmem]
    exact Bool.false_ne_true
  have hend : awaitDone k (s.port k).ch.q.sqTail [] ((s.sendTo k cmd).events turn) =
      (some ctx, (s.sendTo k cmd).events turn) := by
    rw [awaitDone, hctx, filter_some, if_pos hdone]
  have hcall := h [turn]
  rw [submitCmd_irq hon, awaitDone_cons hstart, hend] at hcall
  exact hcall (if_neg (not_not.mpr hstatus))

/-- What the handler leaves in the context of an identifier whose last completion is `c`. -/
theorem context_irq {size cid : ℕ} {p : NvmePort} {c : NvmeCqe} (h : p.Inv size)
    (hon : p.interrupts = true) (hcid : cid < size)
    (hlast : ((p.ch.posted.drop p.ch.taken.length).filter fun c => c.commandId == cid).getLast? =
      some c) : p.irq.context cid = some ⟨true, c.status / 2, c⟩ := by
  rcases h.irq_cases with ⟨_, hoff⟩ | ⟨hdrained, _⟩
  · exact nomatch hon.symm.trans hoff
  obtain ⟨_, hsome⟩ := Bool.and_eq_true_iff.mp hon
  obtain ⟨ctxs, hctxs⟩ := isSome_iff_exists.mp hsome
  rw [NvmePort.context, hdrained.contexts_eq, hctxs, map_some, map_some,
    h.channel.size_eq, filled_apply hcid, hlast]
  rfl

theorem fresh_of_trustworthy_irq (h : Inv sizes s) (hon : s.waitsForIrq k = true)
    (htrust : s.Trustworthy k cmd) : (s.port k).FreshIrq := by
  cases k with
  | admin => exact absurd hon Bool.false_ne_true
  | io =>
    have hinv := (h .io).enqueue cmd
    have hcid := (h .io).tail_lt
    set p := (s.port .io).enqueue cmd
    have hintr : p.interrupts = true := (s.waitsForIrq_enqueue .io cmd).trans hon
    refine ⟨fun i hi => ?_, fun c hlast hcode => ?_⟩
    · -- an outstanding command with the same identifier is completed while the call waits
      by_contra hnew
      have hdrained : p.irq.ch.taken = p.irq.ch.posted := by
        rcases hinv.irq_cases with ⟨_, hoff⟩ | ⟨hd, _⟩
        · exact nomatch hintr.symm.trans hoff
        · exact hd.taken_eq.trans hd.posted_eq.symm
      have hlt : i < (s.port .io).sent.length := (List.getElem?_eq_some_iff.mp hi).1
      have hsent : p.irq.sent[i]? = some (s.port .io).ch.q.sqTail :=
        (getElem?_append_left hlt).trans hi
      have hlater := hinv.later.irq
      obtain ⟨hanswered, e, hposted, hecid, hcode⟩ :=
        hlater.inv.complete_next (congrArg length hdrained) hsent hnew successCqe
      have hlater' := hlater.complete i successCqe
      have hctx := context_irq (c := e) hlater'.inv (hlater'.interrupts_eq.trans hintr) hcid (by
        rw [hposted, (NvmePort.taken_complete _ i successCqe).1, hdrained, drop_left,
          filter_singleton, hecid, beq_self_eq_true]
        rfl)
      have hans := htrust.irq hon [.irq, .complete .io i successCqe, .irq] hctx rfl hcode
      change _ ∈ (p.irq.complete i successCqe).answered at hans
      rw [hanswered] at hans
      rcases mem_append.mp hans with hold | hown
      · exact unanswered h .io 0 hold
      · exact absurd (congrArg Prod.fst (mem_singleton.mp hown)).symm hlt.ne
    · -- a success with this identifier is waiting already
      have hctx := context_irq (c := c) hinv hintr hcid hlast
      exact unanswered h .io 0 (htrust.irq hon [.irq] hctx rfl hcode)

end Trustworthy

/-- In every state that a run of calls can reach, the next call is to be trusted exactly when nothing of
an earlier command can turn up for it. -/
theorem submitCmd_trustworthy_iff (useMsix : Bool) {adminSize ioSize : ℕ} (hadmin : 0 < adminSize)
    (hio : 0 < ioSize) (ops : List Op) (k : QueueId) (cmd : NvmeSqe) :
    ((setup useMsix adminSize ioSize).run ops).Trustworthy k cmd ↔
      ((setup useMsix adminSize ioSize).run ops).Fresh k := by
  have hinv := (inv_setup useMsix hadmin hio).run ops
  rw [Fresh]
  split
  · rename_i hon
    exact ⟨fresh_of_trustworthy_irq hinv hon, fun hfresh => trustworthy_irq hinv hon hfresh cmd⟩
  · rename_i hoff
    have hoff := Bool.not_eq_true _ ▸ hoff
    exact ⟨fresh_of_trustworthy_polled hinv hoff,
      fun hfresh => trustworthy_polled hinv hoff hfresh cmd⟩

/-- Two commands that are completed in time, the second one with an error. -/
def answeredTwo : NvmeController :=
  let cmd : NvmeSqe := ⟨2, 1, 0x1000, 0, 0, 0, 0⟩
  (setup true 2 2).run [.io cmd [[.complete .io 0 successCqe, .irq]],
    .io cmd [[], [.complete .io 1 { successCqe with status := 4 }, .irq]]]

/-- The third command has the identifier of the first one. -/
theorem submitCmd_trustworthy_iff_answeredTwo :
    (answeredTwo.port .io).sent = [0, 1] ∧ (answeredTwo.port .io).answered = [(0, 0), (1, 2)] ∧
      answeredTwo.Trustworthy .io ⟨2, 1, 0x1000, 0, 0, 0, 0⟩ := by
  have hsent : (answeredTwo.port .io).sent = [0, 1] := by decide
  have hanswered : (answeredTwo.port .io).answered = [(0, 0), (1, 2)] := by decide
  have hwaiting : (answeredTwo.port .io).waiting = [] := by decide
  refine ⟨hsent, hanswered, (submitCmd_trustworthy_iff true (by decide) (by decide) _ .io _).mpr ?_⟩
  change (answeredTwo.port .io).FreshIrq
  refine ⟨fun i hi => ?_, fun c hc => ?_⟩
  · rw [hsent] at hi
    have hlt : i < 2 := (List.getElem?_eq_some_iff.mp hi).1
    have hi' : i = 0 ∨ i = 1 := by omega
    rw [hanswered]
    rcases hi' with rfl | rfl <;> decide
  · rw [hwaiting] at hc
    cases hc

/-- The first command of a queue times out and is completed late. A polling call takes its completion for
the answer to the second command; with interrupts, the third command of a queue of two has the same
identifier and gets it. -/
theorem submitCmd_late_completion :
    let cmd : NvmeSqe := ⟨2, 1, 0x1000, 0, 0, 0, 0⟩
    let polled := ((setup false 2 2).run [.io cmd []]).nvmeSubmitIoCmd cmd
      [[.complete .io 0 successCqe]]
    let msix := ((setup true 2 2).run [.io cmd [], .io cmd []]).nvmeSubmitIoCmd cmd
      [[.complete .io 0 successCqe, .irq]]
    (polled.1.1 = 0 ∧ polled.2.io.answered = [(0, 0)] ∧ polled.2.io.sent.length = 2) ∧
      msix.1.1 = 0 ∧ msix.2.io.answered = [(0, 0)] ∧ msix.2.io.sent.length = 3 := by
  decide

end NvmeController

end NovaOS.Drivers
