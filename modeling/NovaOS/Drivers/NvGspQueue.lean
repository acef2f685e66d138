import NovaOS.Drivers.NvGsp
import Mathlib.Algebra.Order.BigOperators.Group.List

/-!
# The queues between the driver and the GSP

Reference: `drivers/nvidia/core/rpc.c`, `drivers/nvidia/core/gsp.c`, `drivers/nvidia/arch/turing/turing.c`.

Both queues are rings of 63 slots. The driver writes commands from its write pointer on, without a look at
`*cmdq_rptr` and without going around the end of the ring: `commands_keep_messages` says when this is right. Of
the status queue there are two readers. `nv_gsp_msg_recv` goes past a message by its `elem_count`,
`nv_gsp_wait_init_done` by one slot: `readers_whole_iff` says when both see the messages.
-/

namespace NovaOS.Drivers

open NovaOS.Lib List Function

/-! ## Commands -/

/-- The queue with the commands that the GSP has not consumed: the first slot and the number of slots of each,
the oldest first. -/
structure GspCommands where
  gsp : NvGsp
  pending : List (ℕ × ℕ)

namespace GspCommands

open NvGsp

/-- A command is written and published. -/
def push (fn : BitVec 32) (payload : List (BitVec 8)) (s : GspCommands) : GspCommands :=
  ⟨s.gsp.rpcPush fn payload, s.pending ++ [(s.gsp.cmdqWptr, slots payload)]⟩

/-- The same with `nv_gsp_push_preinit_rpc`, which may refuse the command. -/
def pushPreinit (fn : BitVec 32) (payload : List (BitVec 8)) (s : GspCommands) : GspCommands :=
  let (ret, gsp) := s.gsp.nvGspPushPreinitRpc fn payload
  ⟨gsp, if ret = 0 then s.pending ++ [(s.gsp.cmdqWptr, slots payload)] else s.pending⟩

/-- The GSP consumes a command. -/
def consume (s : GspCommands) : GspCommands := { s with pending := s.pending.tail }

/-- The number of slots that hold commands. -/
def used (pending : List (ℕ × ℕ)) : ℕ := (pending.map Prod.snd).sum

/-- The command fits before the end of the ring and in the slots that are free. -/
structure Room (payload : List (BitVec 8)) (s : GspCommands) : Prop where
  fits : s.gsp.cmdqWptr + slots payload ≤ 63
  free : used s.pending + slots payload ≤ 63

/-- The states after any commands that had room, with the GSP consuming them at any time. -/
inductive Reached : GspCommands → Prop
  | start (shm : ℕ → BitVec 32) : Reached ⟨⟨shm, 0, 0#32⟩, []⟩
  | push {s : GspCommands} (fn : BitVec 32) (payload : List (BitVec 8)) (h : Reached s) (hroom : s.Room payload) :
      Reached (s.push fn payload)
  | pushPreinit {s : GspCommands} (fn : BitVec 32) (payload : List (BitVec 8)) (h : Reached s)
      (hroom : s.Room payload) : Reached (s.pushPreinit fn payload)
  | consume {s : GspCommands} (h : Reached s) : Reached s.consume

/-- The commands follow one another around the ring from `r` to `w`, each in one piece. -/
def Chained : ℕ → List (ℕ × ℕ) → ℕ → Prop
  | r, [], w => r = w
  | r, m :: l, w => m.1 = r ∧ m.1 + m.2 ≤ 63 ∧ Chained ((r + m.2) % 63) l w

variable {s : GspCommands} {l : List (ℕ × ℕ)} {r w n : ℕ} {payload : List (BitVec 8)}

theorem used_cons (m : ℕ × ℕ) (l : List (ℕ × ℕ)) : used (m :: l) = m.2 + used l := sum_cons

theorem Chained.end_eq (h : Chained r l w) (hr : r < 63) : w = (r + used l) % 63 := by
  induction l generalizing r with
  | nil => exact h ▸ (Nat.mod_eq_of_lt hr).symm
  | cons m l ih =>
    rw [ih h.2.2 (Nat.mod_lt _ (by decide)), used_cons, Nat.mod_add_mod, add_assoc]

theorem Chained.concat (h : Chained r l w) (hn : w + n ≤ 63) :
    Chained r (l ++ [(w, n)]) ((w + n) % 63) := by
  induction l generalizing r with
  | nil => exact ⟨h.symm, hn, h ▸ rfl⟩
  | cons m l ih => exact ⟨h.1, h.2.1, ih h.2.2⟩

/-- A new command is apart from those in the ring. -/
theorem Chained.apart (h : Chained r l w) (hr : r < 63) (hfree : used l + n ≤ 63) {m : ℕ × ℕ}
    (hm : m ∈ l) : m.1 + m.2 ≤ w ∨ w + n ≤ m.1 := by
  induction l generalizing r with
  | nil => cases hm
  | cons x l ih =>
    rw [used_cons] at hfree
    rcases mem_cons.mp hm with rfl | hm
    · -- from the start of the command to the write pointer there are `used` slots around the ring
      have hend := h.end_eq hr
      obtain ⟨hstart, hpiece, -⟩ := h
      rw [used_cons] at hend
      omega
    · exact ih h.2.2 (Nat.mod_lt _ (by decide)) (by omega) hm

/-- The commands in the ring lie between some slot and the write pointer. -/
structure Inv (s : GspCommands) : Prop where
  chained : ∃ r < 63, Chained r s.pending s.gsp.cmdqWptr
  wptr_lt : s.gsp.cmdqWptr < 63

theorem Inv.published (h : Inv s) (fn : BitVec 32) (hroom : s.Room payload) :
    Inv ⟨s.gsp.publish fn payload, s.pending ++ [(s.gsp.cmdqWptr, slots payload)]⟩ := by
  obtain ⟨r, hr, hchained⟩ := h.chained
  have hwrap : wrap32 (s.gsp.cmdqWptr + slots payload) = s.gsp.cmdqWptr + slots payload :=
    wrap32_of_lt (lt_of_le_of_lt hroom.fits (by decide))
  refine ⟨⟨r, hr, ?_⟩, Nat.mod_lt _ (by decide)⟩
  change Chained r _ (wrap32 _ % 63)
  rw [hwrap]
  exact hchained.concat hroom.fits

theorem slots_le (hroom : s.Room payload) : slots payload ≤ 63 := le_trans (Nat.le_add_left ..) hroom.fits

/-- `nv_gsp_push_preinit_rpc` refuses the command or does what the others do. -/
theorem pushPreinit_cases (fn : BitVec 32) (hroom : s.Room payload) :
    s.pushPreinit fn payload = s ∨ s.pushPreinit fn payload =
      ⟨s.gsp.publish fn payload, s.pending ++ [(s.gsp.cmdqWptr, slots payload)]⟩ := by
  by_cases hne : payload = []
  · left
    simp only [hne]
    rfl
  · right
    simp only [pushPreinit, nvGspPushPreinitRpc_eq fn hne (slots_le hroom), if_true]

theorem Reached.inv (h : Reached s) : Inv s := by
  induction h with
  | start shm => exact ⟨⟨0, by decide, rfl⟩, Nat.succ_pos 62⟩
  | push fn payload _ hroom ih =>
    rw [GspCommands.push, rpcPush_eq fn (slots_le hroom)]
    exact ih.published fn hroom
  | pushPreinit fn payload _ hroom ih =>
    rcases pushPreinit_cases fn hroom with heq | heq
    · rw [heq]
      exact ih
    · rw [heq]
      exact ih.published fn hroom
  | @consume s _ ih =>
    obtain ⟨⟨r, hr, hchained⟩, hlt⟩ := ih
    obtain ⟨gsp, pending⟩ := s
    cases pending with
    | nil => exact ⟨⟨r, hr, hchained⟩, hlt⟩
    | cons m l => exact ⟨⟨(r + m.2) % 63, Nat.mod_lt _ (by decide), hchained.2.2⟩, hlt⟩

/-- A command writes to its own slots only. -/
theorem publish_of_out (g : NvGsp) (fn : BitVec 32) {x : ℕ}
    (hx : x < slotWord g.cmdqWptr ∨ slotWord g.cmdqWptr + slots payload * 1024 ≤ x) :
    (g.publish fn payload).shm x = g.shm x := by
  have hpos : 20 < slots payload * 1024 ∧ 80 + payload.length ≤ slots payload * 4096 := by
    unfold slots
    omega
  have hfields : ∀ {fields : List (ℕ × BitVec 32)} {m : ℕ → BitVec 32}, (∀ f ∈ fields, f.1 < 20) →
      setFields (slotWord g.cmdqWptr) fields m x = m x := fun hlt =>
    setFields_of_not_mem (fun f hf he => by have := hlt f hf; omega) _
  have hcopy : ¬(slotWord g.cmdqWptr + 20 ≤ x ∧ 4 * (x - (slotWord g.cmdqWptr + 20)) < payload.length) := by omega
  have hset : ¬(slotWord g.cmdqWptr ≤ x ∧ x < slotWord g.cmdqWptr + slots payload * 4096 / 4) := by omega
  change setFields _ _ _ x = _
  rw [hfields (by simp), body, memcpy, if_neg hcopy, hfields (by simp [rpcFields]), hfields (by simp),
    memset, if_neg hset]

/-- As long as every command has room, a command that has room writes to the 63 slots only, and not to a slot of
a command that the GSP has not consumed. -/
theorem commands_keep_messages (h : Reached s) (fn : BitVec 32) (hroom : s.Room payload) {x : ℕ}
    (hx : x < slotWord 0 ∨ slotWord 63 ≤ x ∨
      ∃ m ∈ s.pending, slotWord m.1 ≤ x ∧ x < slotWord (m.1 + m.2)) :
    (s.push fn payload).gsp.shm x = s.gsp.shm x ∧ (s.pushPreinit fn payload).gsp.shm x = s.gsp.shm x := by
  obtain ⟨r, hr, hchained⟩ := h.inv.chained
  have hout : x < slotWord s.gsp.cmdqWptr ∨ slotWord s.gsp.cmdqWptr + slots payload * 1024 ≤ x := by
    have hfits := hroom.fits
    rcases hx with hx | hx | ⟨m, hm, hlow, hhigh⟩
    · unfold slotWord at *
      omega
    · unfold slotWord at *
      omega
    · have hapart := hchained.apart hr hroom.free hm
      unfold slotWord at *
      omega
  have hsame := publish_of_out s.gsp fn hout
  refine ⟨?_, ?_⟩
  · rw [push, rpcPush_eq fn (slots_le hroom)]
    exact hsame
  · rcases pushPreinit_cases fn hroom with heq | heq
    · rw [heq]
    · rw [heq]
      exact hsame

/-- The empty queue. -/
def idle : GspCommands := ⟨sampleGsp, []⟩

theorem commands_keep_messages_second :
    (idle.push 72#32 [7#8]).pending = [(0, 1)] ∧
      ((idle.push 72#32 [7#8]).push 73#32 [9#8]).gsp.shm (slotWord 0 + 20) =
        (idle.push 72#32 [7#8]).gsp.shm (slotWord 0 + 20) :=
  ⟨by decide +kernel,
    (commands_keep_messages ((Reached.start _).push 72#32 [7#8] ⟨by decide, by decide⟩) 73#32
      ⟨by decide +kernel, by decide +kernel⟩
      (.inr (.inr ⟨(0, 1), by decide +kernel, by decide +kernel, by decide +kernel⟩))).1⟩

/-- A message of 16 slots. -/
def longMessage : List (BitVec 8) := replicate 61361 0#8

/-- The queue after three such messages. -/
def threeLong : NvGsp := ((sampleGsp.rpcPush 76#32 longMessage).rpcPush 76#32 longMessage).rpcPush 76#32 longMessage

/-- The fourth of four messages of 16 slots reaches into the status queue. -/
theorem write_past_the_end :
    longMessage.length ≤ 16 * 4096 ∧ threeLong.cmdqWptr = 48 ∧ threeLong.shm (slotWord 63 + 100) = 1#32 ∧
      (threeLong.rpcPush 76#32 longMessage).shm (slotWord 63 + 100) = 0#32 := by
  have hlen : longMessage.length = 61361 := length_replicate
  have hslots : slots longMessage = 16 := by rw [slots, hlen]
  have hpush : ∀ g : NvGsp, g.rpcPush 76#32 longMessage = g.publish 76#32 longMessage :=
    fun g => rpcPush_eq 76#32 (by rw [hslots]; decide)
  have hwptr : ∀ g : NvGsp, (g.publish 76#32 longMessage).cmdqWptr = wrap32 (g.cmdqWptr + 16) % 63 := fun g => by
    rw [publish, hslots]
  have hone : (sampleGsp.publish 76#32 longMessage).cmdqWptr = 16 := hwptr _
  have htwo : ((sampleGsp.publish 76#32 longMessage).publish 76#32 longMessage).cmdqWptr = 32 := by
    rw [hwptr, hone]
    rfl
  have hthree : threeLong.cmdqWptr = 48 := by
    rw [threeLong, hpush, hpush, hpush, hwptr, htwo]
    rfl
  refine ⟨by rw [hlen]; decide, hthree, ?_, ?_⟩
  · rw [threeLong, hpush, hpush, hpush, publish_of_out _ _ (.inr (by rw [htwo, hslots]; decide)),
      publish_of_out _ _ (.inr (by rw [hone, hslots]; decide)), publish_of_out _ _ (.inr (by rw [hslots]; decide))]
    rfl
  · -- the word is behind the payload, so it is only cleared
    have hfields : ∀ {fields : List (ℕ × BitVec 32)} {m : ℕ → BitVec 32}, (∀ f ∈ fields, f.1 < 20) →
        setFields (slotWord 48) fields m (slotWord 63 + 100) = m (slotWord 63 + 100) := fun hlt =>
      setFields_of_not_mem (fun f hf => by have := hlt f hf; unfold slotWord; omega) _
    rw [hpush, publish]
    simp only [body, hthree]
    rw [hfields (by simp), memcpy, if_neg (by rw [hlen]; decide), hfields (by simp [rpcFields]),
      hfields (by simp), memset, if_pos (by rw [hslots]; decide)]

end GspCommands

/-! ## The status queue -/

/-- What the readers use of the headers of a slot. -/
structure MsgHdr where
  function : ℕ
  elemCount : ℕ

/-- The slots, `*msgq_wptr` and, for what is said about the readers, the messages that the GSP has sent. -/
structure StatusQueue where
  slot : ℕ → MsgHdr
  wptr : ℕ
  sent : List MsgHdr

/-- The GSP sends a message of `elemCount` slots. A reader that takes a later one of them for a header reads
`body`. -/
def StatusQueue.send (m : MsgHdr) (body : ℕ → MsgHdr) (q : StatusQueue) : StatusQueue where
  slot i := if i = q.wptr then m else if (i + 63 - q.wptr) % 63 < m.elemCount then body i else q.slot i
  wptr := (q.wptr + m.elemCount) % 63
  sent := q.sent ++ [m]

/-- What a reader is doing; `time` is what it counts. -/
inductive ReaderPhase where
  | running (time : ℕ)
  | drain
  | returned

/-- The queue, `*msgq_rptr`, the headers that were read so far and what the reader is doing. -/
structure StatusReader where
  queue : StatusQueue
  rptr : ℕ
  seen : List MsgHdr
  phase : ReaderPhase

/-- The GSP wants to send a message, or the reader takes a turn of its loop. -/
inductive QueueEvent where
  | message (m : MsgHdr) (body : ℕ → MsgHdr)
  | turn

namespace StatusReader

/-- The read pointer goes past `count` slots. -/
def skip (count : ℕ) (s : StatusReader) : StatusReader := { s with rptr := wrap32 (s.rptr + count) % 63 }

/-- The same after the header at the read pointer was read. -/
def advance (count : ℕ) (s : StatusReader) : StatusReader :=
  { s.skip count with seen := s.seen ++ [s.queue.slot s.rptr] }

/-- One turn of the loops of `nv_gsp_wait_init_done`, which counts up to `timeoutMs`. -/
def waitStep (timeoutMs : ℕ) (s : StatusReader) : StatusReader :=
  match s.phase with
  | .running elapsed =>
    if elapsed < timeoutMs then
      if s.queue.wptr ≠ s.rptr then
        if (s.queue.slot s.rptr).function = 0x1002 then s.advance 1
        else if (s.queue.slot s.rptr).function = 0x1001 then { s.advance 1 with phase := .drain }
        else { s.advance 1 with phase := .running (elapsed + 1) }
      else { s with phase := .running (elapsed + 1) }
    else { s with phase := .returned }
  | .drain => if s.rptr ≠ s.queue.wptr then s.skip 1 else { s with phase := .returned }
  | .returned => s

/-- The time goes on in `nv_gsp_msg_recv`. -/
def tick (timeoutUs : ℕ) (s : StatusReader) : StatusReader :=
  { s with phase := if timeoutUs ≥ 50 then .running (timeoutUs - 50) else .returned }

/-- One turn of the loop of `nv_gsp_msg_recv` for `fn`, which counts down. -/
def recvStep (fn : ℕ) (s : StatusReader) : StatusReader :=
  match s.phase with
  | .running timeoutUs =>
    if timeoutUs > 0 then
      if s.queue.wptr ≠ s.rptr then
        let rx := s.queue.slot s.rptr
        let count := if rx.elemCount ≠ 0 then rx.elemCount else 1
        if rx.function ≥ 0x1000 then s.advance count
        else if fn ≠ 0 ∧ rx.function = fn then { s.advance count with phase := .returned }
        else (s.advance count).tick timeoutUs
      else s.tick timeoutUs
    else { s with phase := .returned }
  | _ => s

/-- The number of slots that the GSP finds free; one slot stays empty. -/
def room (s : StatusReader) : ℕ := 62 - (s.queue.wptr + 63 - s.rptr) % 63

/-- A message that finds no room is not sent. -/
def step (turn : StatusReader → StatusReader) (s : StatusReader) : QueueEvent → StatusReader
  | .message m body =>
    if 0 < m.elemCount ∧ m.elemCount ≤ s.room then { s with queue := s.queue.send m body } else s
  | .turn => turn s

/-- A call of a reader, with messages that arrive meanwhile. -/
def run (turn : StatusReader → StatusReader) (s : StatusReader) (es : List QueueEvent) : StatusReader :=
  es.foldl (step turn) s

/-- The messages stand in the slots one after another from `r` to `w`. -/
def Lays (slot : ℕ → MsgHdr) : ℕ → List MsgHdr → ℕ → Prop
  | r, [], w => r = w
  | r, m :: ms, w => slot r = m ∧ 0 < m.elemCount ∧ Lays slot ((r + m.elemCount) % 63) ms w

/-- The number of slots of the messages. -/
def total (ms : List MsgHdr) : ℕ := (ms.map MsgHdr.elemCount).sum

/-- The reader is behind the messages `gone`, at the start of the next one. -/
def Whole (gone : List MsgHdr) (s : StatusReader) : Prop :=
  ∃ rest, s.queue.sent = gone ++ rest ∧ total rest ≤ 62 ∧ Lays s.queue.slot s.rptr rest s.queue.wptr

/-- It is at the start of a message, and what it read are the headers of the first messages. -/
def Boundary (s : StatusReader) : Prop := ∃ gone, s.seen <+: gone ∧ Whole gone s

/-- What `nv_gsp_wait_init_done` does after a turn in which it finds a message or none. -/
def waitPhase (timeoutMs : ℕ) (found : Option MsgHdr) : ReaderPhase → ReaderPhase
  | .running elapsed =>
    if elapsed < timeoutMs then
      match found with
      | none => .running (elapsed + 1)
      | some m =>
        if m.function = 0x1002 then .running elapsed
        else if m.function = 0x1001 then .drain
        else .running (elapsed + 1)
    else .returned
  | .drain => if found.isSome then .drain else .returned
  | .returned => .returned

/-- It goes past a message that it finds. -/
def goesPast (timeoutMs : ℕ) : ReaderPhase → Bool
  | .running elapsed => elapsed < timeoutMs
  | .drain => true
  | .returned => false

/-- The messages that it would go past in a run if it went from one message to the next. -/
def passed (timeoutMs : ℕ) : ReaderPhase → List MsgHdr → List QueueEvent → List MsgHdr
  | _, _, [] => []
  | phase, unread, .message m _ :: es =>
    passed timeoutMs phase
      (if 0 < m.elemCount ∧ m.elemCount ≤ 62 - total unread then unread ++ [m] else unread) es
  | phase, unread, .turn :: es =>
    if goesPast timeoutMs phase then
      unread.take 1 ++ passed timeoutMs (waitPhase timeoutMs unread.head? phase) unread.tail es
    else passed timeoutMs .returned unread es

variable {slot : ℕ → MsgHdr} {s : StatusReader} {gone rest ms : List MsgHdr} {m : MsgHdr} {r w timeoutMs : ℕ}

theorem total_cons (m : MsgHdr) (ms : List MsgHdr) : total (m :: ms) = m.elemCount + total ms := sum_cons

theorem total_append (ms ms' : List MsgHdr) : total (ms ++ ms') = total ms + total ms' := by
  rw [total, map_append, sum_append, total, total]

theorem Lays.end_eq (h : Lays slot r ms w) (hr : r < 63) : w = (r + total ms) % 63 := by
  induction ms generalizing r with
  | nil => exact h ▸ (Nat.mod_eq_of_lt hr).symm
  | cons m ms ih =>
    rw [ih h.2.2 (Nat.mod_lt _ (by decide)), total_cons, Nat.mod_add_mod, add_assoc]

/-- The ring is not empty while there are messages. -/
theorem Lays.ne (h : Lays slot r (m :: ms) w) (hr : r < 63) (htotal : total (m :: ms) ≤ 62) : w ≠ r := by
  have hend := h.end_eq hr
  have hpos := h.2.1
  rw [total_cons] at hend htotal
  omega

/-- A new message stands behind the others. -/
theorem Lays.send {q : StatusQueue} (h : Lays q.slot r ms q.wptr) (hr : r < 63) (hpos : 0 < m.elemCount)
    (hroom : total ms + m.elemCount ≤ 62) (body : ℕ → MsgHdr) :
    Lays (q.send m body).slot r (ms ++ [m]) (q.send m body).wptr := by
  induction ms generalizing r with
  | nil =>
    obtain rfl : r = q.wptr := h
    exact ⟨if_pos rfl, hpos, rfl⟩
  | cons x ms ih =>
    have hend := h.end_eq hr
    obtain ⟨hx, hxpos, hrest⟩ := h
    rw [total_cons] at hend hroom
    have hkeep : (q.send m body).slot r = q.slot r := by
      change (if r = q.wptr then m else if (r + 63 - q.wptr) % 63 < m.elemCount then body r else q.slot r) = _
      rw [if_neg (by omega), if_neg (by omega)]
    exact ⟨hkeep.trans hx, hxpos, ih hrest (Nat.mod_lt _ (by decide)) (by omega)⟩

/-- What is known of a reader that is behind `gone`: `rest` is left. -/
structure At (gone rest : List MsgHdr) (s : StatusReader) : Prop where
  sent : s.queue.sent = gone ++ rest
  lays : Lays s.queue.slot s.rptr rest s.queue.wptr
  lt : s.rptr < 63
  total_le : total rest ≤ 62

theorem At.whole (h : At gone rest s) : Whole gone s := ⟨rest, h.sent, h.total_le, h.lays⟩

theorem At.phase (h : At gone rest s) (seen : List MsgHdr) (phase : ReaderPhase) :
    At gone rest { s with seen := seen, phase := phase } :=
  ⟨h.sent, h.lays, h.lt, h.total_le⟩

/-- Past a message, by its number of slots, there is the next one. -/
theorem At.skip (h : At gone (m :: ms) s) : At (gone ++ [m]) ms (s.skip m.elemCount) := by
  have htotal := h.total_le
  have hlt := h.lt
  rw [total_cons] at htotal
  have hwrap : wrap32 (s.rptr + m.elemCount) = s.rptr + m.elemCount := wrap32_of_lt (by omega)
  refine ⟨by rw [append_assoc]; exact h.sent, ?_, Nat.mod_lt _ (by decide), by omega⟩
  change Lays _ (wrap32 _ % 63) ms _
  rw [hwrap]
  exact h.lays.2.2

/-- One slot past a message there is a message only if the message has one slot. -/
theorem At.one (h : At gone (m :: ms) s) {gone' : List MsgHdr} (hskip : Whole gone' (s.skip 1)) :
    m.elemCount = 1 := by
  obtain ⟨rest, hsent, htotal, hlays⟩ := hskip
  have hlt := h.lt
  have hend := h.lays.end_eq hlt
  have hend' := hlays.end_eq (Nat.mod_lt _ (by decide))
  change s.queue.wptr = (wrap32 (s.rptr + 1) % 63 + total rest) % 63 at hend'
  rw [wrap32_of_lt (by omega)] at hend'
  have hle := h.total_le
  have hpos := h.lays.2.1
  rw [total_cons] at hend hle
  -- what is left has one slot less than before, so it is what is behind the message
  have hsuffix : rest <:+ m :: ms ∨ m :: ms <:+ rest :=
    suffix_or_suffix_of_suffix ⟨gone', hsent.symm⟩ ⟨gone, h.sent.symm⟩
  have hmore : ¬m :: ms <:+ rest := by
    rintro ⟨x, rfl⟩
    rw [total_append, total_cons] at hend' htotal
    omega
  rcases suffix_cons_iff.mp (hsuffix.resolve_right hmore) with rfl | ⟨x, rfl⟩
  · exact absurd (suffix_refl _) hmore
  · rw [total_append] at hend hle
    omega

theorem At.room_eq (h : At gone rest s) : s.room = 62 - total rest := by
  have hend := h.lays.end_eq h.lt
  have hlt := h.lt
  have hle := h.total_le
  unfold room
  omega

/-- A message arrives or has to wait. -/
theorem At.message (h : At gone rest s) (turn : StatusReader → StatusReader) (m : MsgHdr) (body : ℕ → MsgHdr) :
    At gone (if 0 < m.elemCount ∧ m.elemCount ≤ 62 - total rest then rest ++ [m] else rest)
      (step turn s (.message m body)) := by
  rw [step, h.room_eq]
  split
  · next hroom =>
    have htotal := total_append rest [m]
    rw [total_cons] at htotal
    have hle : total rest + m.elemCount ≤ 62 := by
      have := h.total_le
      omega
    refine ⟨?_, h.lays.send h.lt hroom.1 hle body, h.lt, htotal.trans_le hle⟩
    change s.queue.sent ++ [m] = _
    rw [h.sent, append_assoc]
  · exact h

theorem step_message_keeps (turn : StatusReader → StatusReader) (s : StatusReader) (m : MsgHdr)
    (body : ℕ → MsgHdr) :
    (step turn s (.message m body)).seen = s.seen ∧ (step turn s (.message m body)).phase = s.phase := by
  rw [step]
  split <;> exact ⟨rfl, rfl⟩

/-! ### `nv_gsp_msg_recv` -/

theorem At.advance (h : At s.seen (m :: ms) s) :
    At (s.advance m.elemCount).seen ms (s.advance m.elemCount) := by
  have hread : s.seen ++ [s.queue.slot s.rptr] = s.seen ++ [m] := by rw [h.lays.1]
  change At (s.seen ++ [s.queue.slot s.rptr]) ms _
  rw [hread]
  exact h.skip.phase _ _

/-- It stays at the start of messages and reads the header of each. -/
theorem At.recvStep (h : At s.seen rest s) (fn : ℕ) :
    ∃ rest, At (s.recvStep fn).seen rest (s.recvStep fn) := by
  unfold StatusReader.recvStep
  cases s.phase with
  | running timeoutUs =>
    dsimp only
    split
    · cases rest with
      | nil =>
        rw [if_neg (not_not.mpr h.lays.symm)]
        exact ⟨[], h.phase _ _⟩
      | cons m ms =>
        have hcount : (if (s.queue.slot s.rptr).elemCount ≠ 0 then (s.queue.slot s.rptr).elemCount else 1) =
            m.elemCount := by
          rw [h.lays.1, if_pos (ne_of_gt h.lays.2.1)]
        rw [if_pos (h.lays.ne h.lt h.total_le), hcount]
        split
        · exact ⟨ms, h.advance⟩
        · split
          · exact ⟨ms, h.advance.phase _ _⟩
          · exact ⟨ms, h.advance.phase _ _⟩
    · exact ⟨rest, h.phase _ _⟩
  | drain => exact ⟨rest, h⟩
  | returned => exact ⟨rest, h⟩

theorem At.recv_run (h : At s.seen rest s) (fn : ℕ) (es : List QueueEvent) :
    ∃ rest, At (run (StatusReader.recvStep fn) s es).seen rest (run (StatusReader.recvStep fn) s es) := by
  induction es generalizing s rest with
  | nil => exact ⟨rest, h⟩
  | cons e es ih =>
    cases e with
    | message m body =>
      have hnext := h.message (StatusReader.recvStep fn) m body
      rw [← (step_message_keeps (StatusReader.recvStep fn) s m body).1] at hnext
      exact ih hnext
    | turn =>
      obtain ⟨rest, hrest⟩ := h.recvStep fn
      exact ih hrest

/-! ### `nv_gsp_wait_init_done` -/

/-- It has read the headers of all messages it went past, or of those before it drains the queue. -/
structure Saw (gone : List MsgHdr) (s : StatusReader) : Prop where
  le : s.seen <+: gone
  all : ∀ elapsed, s.phase = .running elapsed → s.seen = gone

/-- A turn in which it goes past a message. -/
theorem At.waitStep_cons (h : At gone (m :: ms) s) (hsaw : Saw gone s) (hpast : goesPast timeoutMs s.phase) :
    ∃ seen, s.waitStep timeoutMs =
        { s.skip 1 with seen := seen, phase := waitPhase timeoutMs (some m) s.phase } ∧
      Saw (gone ++ [m]) (s.waitStep timeoutMs) := by
  have hne := h.lays.ne h.lt h.total_le
  have hread : ∀ elapsed, s.phase = .running elapsed → s.seen ++ [s.queue.slot s.rptr] = gone ++ [m] :=
    fun elapsed hphase => by rw [hsaw.all elapsed hphase, h.lays.1]
  unfold StatusReader.waitStep
  cases hphase : s.phase with
  | running elapsed =>
    rw [hphase] at hpast
    have hlt : elapsed < timeoutMs := of_decide_eq_true hpast
    have hseen := hread elapsed hphase
    dsimp only [waitPhase]
    rw [if_pos hlt, if_pos hne, if_pos hlt, h.lays.1]
    refine ⟨gone ++ [m], ?_⟩
    rw [← hseen]
    split
    · rw [← hphase]
      exact ⟨rfl, prefix_rfl, fun _ _ => rfl⟩
    · split
      · exact ⟨rfl, prefix_rfl, fun _ _ => rfl⟩
      · exact ⟨rfl, prefix_rfl, fun _ _ => rfl⟩
  | drain =>
    dsimp only [waitPhase]
    rw [if_pos hne.symm]
    refine ⟨s.seen, ?_, hsaw.le.trans (prefix_append _ _), fun elapsed hrunning => ?_⟩
    · rw [if_pos (by rfl), ← hphase]
      rfl
    · exact nomatch hphase.symm.trans hrunning
  | returned =>
    rw [hphase] at hpast
    cases hpast

/-- A turn in which it goes past no message. -/
theorem At.waitStep_idle (h : At gone rest s) (hidle : goesPast timeoutMs s.phase → rest = []) :
    s.waitStep timeoutMs = { s with phase := waitPhase timeoutMs rest.head? s.phase } := by
  unfold StatusReader.waitStep
  cases hphase : s.phase with
  | running elapsed =>
    rw [hphase] at hidle
    dsimp only [waitPhase]
    split
    · next hlt =>
      obtain rfl := hidle (decide_eq_true hlt)
      rw [if_neg (not_not.mpr h.lays.symm)]
      rfl
    · rfl
  | drain =>
    rw [hphase] at hidle
    obtain rfl := hidle rfl
    have hend : s.rptr = s.queue.wptr := h.lays
    rw [if_neg (not_not.mpr hend)]
    rfl
  | returned => exact congrArg (fun phase => (⟨s.queue, s.rptr, s.seen, phase⟩ : StatusReader)) hphase

theorem Saw.phase {phase : ReaderPhase} (h : Saw gone s)
    (hphase : ∀ elapsed, phase = .running elapsed → ∃ elapsed, s.phase = .running elapsed) :
    Saw gone { s with phase := phase } :=
  ⟨h.le, fun elapsed heq => (hphase elapsed heq).elim h.all⟩

/-- It begins to count in no turn. -/
theorem running_of_waitPhase {found : Option MsgHdr} {phase : ReaderPhase} {elapsed : ℕ}
    (h : waitPhase timeoutMs found phase = .running elapsed) : ∃ elapsed, phase = .running elapsed := by
  cases phase with
  | running elapsed => exact ⟨elapsed, rfl⟩
  | drain =>
    dsimp only [waitPhase] at h
    split at h <;> cases h
  | returned => cases h

theorem waitPhase_of_not_goesPast {phase : ReaderPhase} (h : ¬goesPast timeoutMs phase)
    (found : Option MsgHdr) : waitPhase timeoutMs found phase = .returned := by
  cases phase with
  | running elapsed => exact if_neg fun hlt => h (decide_eq_true hlt)
  | drain => exact absurd rfl h
  | returned => rfl

/-- From a boundary, what is left of a run begins after the first event. -/
theorem forall_boundary_cons {turn : StatusReader → StatusReader} (h : Boundary s) (e : QueueEvent)
    (es : List QueueEvent) :
    (∀ es', es' <+: e :: es → Boundary (run turn s es')) ↔
      ∀ es', es' <+: es → Boundary (run turn (step turn s e) es') := by
  refine ⟨fun hall es' hes => hall (e :: es') (cons_prefix_cons.mpr ⟨rfl, hes⟩), fun hall es' hes => ?_⟩
  cases es' with
  | nil => exact h
  | cons e' es' =>
    obtain ⟨rfl, hes'⟩ := cons_prefix_cons.mp hes
    exact hall es' hes'

/-- It stays at the start of messages exactly if those that it goes past have one slot each. -/
theorem At.wait_run_iff (h : At gone rest s) (hsaw : Saw gone s) (es : List QueueEvent) :
    (∀ es', es' <+: es → Boundary (run (StatusReader.waitStep timeoutMs) s es')) ↔
      ∀ m ∈ passed timeoutMs s.phase rest es, m.elemCount = 1 := by
  induction es generalizing s gone rest with
  | nil =>
    refine iff_of_true (fun es' hes => ?_) (fun m hm => nomatch hm)
    obtain rfl := prefix_nil.mp hes
    exact ⟨gone, hsaw.le, h.whole⟩
  | cons e es ih =>
    rw [forall_boundary_cons ⟨gone, hsaw.le, h.whole⟩]
    cases e with
    | message m body =>
      obtain ⟨hseen, hphase⟩ := step_message_keeps (StatusReader.waitStep timeoutMs) s m body
      have hsaw' : Saw gone (step (StatusReader.waitStep timeoutMs) s (.message m body)) :=
        ⟨hseen ▸ hsaw.le, fun elapsed heq => hseen ▸ hsaw.all elapsed (hphase ▸ heq)⟩
      rw [ih (h.message _ m body) hsaw', hphase]
      rfl
    | turn =>
      change (∀ es', es' <+: es → Boundary (run _ (s.waitStep timeoutMs) es')) ↔ _
      rw [passed]
      by_cases hpast : goesPast timeoutMs s.phase
      · rw [if_pos hpast]
        cases rest with
        | nil =>
          have hstep : s.waitStep timeoutMs = _ := h.waitStep_idle fun _ => rfl
          rw [hstep, ih (h.phase _ _) (hsaw.phase fun _ => running_of_waitPhase)]
          rfl
        | cons m ms =>
          obtain ⟨seen, hstep, hsaw'⟩ := h.waitStep_cons hsaw hpast
          change _ ↔ ∀ x ∈ m :: passed timeoutMs (waitPhase timeoutMs (some m) s.phase) ms es, _
          rw [forall_mem_cons]
          by_cases hone : m.elemCount = 1
          · have hskip := h.skip
            rw [hone] at hskip
            have hnext : At (gone ++ [m]) ms (s.waitStep timeoutMs) := hstep ▸ hskip.phase _ _
            rw [ih hnext hsaw', hstep]
            exact (and_iff_right hone).symm
          · refine iff_of_false (fun hall => ?_) fun hall => hone hall.1
            obtain ⟨gone', -, hwhole⟩ := hall [] nil_prefix
            change Whole gone' (s.waitStep timeoutMs) at hwhole
            rw [hstep] at hwhole
            exact hone (h.one hwhole)
      · have hstep := h.waitStep_idle fun hgoes => absurd hgoes hpast
        rw [if_neg hpast, hstep, ih (h.phase _ _) (hsaw.phase fun _ => running_of_waitPhase),
          waitPhase_of_not_goesPast hpast]

/-- Whatever messages arrive, `nv_gsp_msg_recv` is at the start of a message after every turn and has read the
header of each message before it. For `nv_gsp_wait_init_done` this holds exactly if every message it goes past has
one slot. -/
theorem readers_whole_iff {q : StatusQueue} (hlays : Lays q.slot r q.sent q.wptr) (hr : r < 63)
    (htotal : total q.sent ≤ 62) (fn timeoutUs timeoutMs : ℕ) (es : List QueueEvent) :
    Whole (run (StatusReader.recvStep fn) ⟨q, r, [], .running timeoutUs⟩ es).seen
        (run (StatusReader.recvStep fn) ⟨q, r, [], .running timeoutUs⟩ es) ∧
      ((∀ es', es' <+: es → Boundary (run (StatusReader.waitStep timeoutMs) ⟨q, r, [], .running 0⟩ es')) ↔
        ∀ m ∈ passed timeoutMs (.running 0) q.sent es, m.elemCount = 1) := by
  have hstart : ∀ phase, At [] q.sent ⟨q, r, [], phase⟩ := fun phase => ⟨rfl, hlays, hr, htotal⟩
  obtain ⟨rest, hrest⟩ := At.recv_run (s := ⟨q, r, [], .running timeoutUs⟩) (hstart _) fn es
  exact ⟨hrest.whole, (hstart (.running 0)).wait_run_iff ⟨ nil_prefix, fun _ _ => rfl⟩ es⟩

/-- A message of three slots around the end of the ring, then `GSP_INIT_DONE`. -/
def longFirst : StatusQueue where
  slot i := if i = 61 then ⟨0x1003, 3⟩ else if i = 1 then ⟨0x1001, 1⟩ else ⟨0, 0⟩
  wptr := 2
  sent := [⟨0x1003, 3⟩, ⟨0x1001, 1⟩]

theorem longFirst_lays : Lays longFirst.slot 61 longFirst.sent longFirst.wptr :=
  ⟨rfl, by decide, rfl, by decide, rfl⟩

/-- A message of one slot. -/
def shortFirst : StatusQueue where
  slot i := if i = 61 then ⟨0x1003, 1⟩ else ⟨0, 0⟩
  wptr := 62
  sent := [⟨0x1003, 1⟩]

/-- `GSP_INIT_DONE` arrives after two turns, and one more message after the third. -/
def arrivals : List QueueEvent :=
  [.turn, .turn, .message ⟨0x1001, 1⟩ longFirst.slot, .turn, .message ⟨0x1003, 1⟩ longFirst.slot, .turn, .turn]

theorem readers_whole_iff_arrivals :
    (run (StatusReader.recvStep 7) ⟨longFirst, 61, [], .running 100⟩ arrivals).seen.length = 4 ∧
      Whole (run (StatusReader.recvStep 7) ⟨longFirst, 61, [], .running 100⟩ arrivals).seen
        (run (StatusReader.recvStep 7) ⟨longFirst, 61, [], .running 100⟩ arrivals) ∧
      (run (StatusReader.waitStep 1000) ⟨shortFirst, 61, [], .running 0⟩ arrivals).phase = .returned ∧
      ∀ es', es' <+: arrivals →
        Boundary (run (StatusReader.waitStep 1000) ⟨shortFirst, 61, [], .running 0⟩ es') :=
  ⟨rfl, (readers_whole_iff longFirst_lays (by decide) (by decide) 7 100 1000 arrivals).1, rfl,
    (readers_whole_iff (q := shortFirst) (r := 61) ⟨rfl, by decide, rfl⟩ (by decide) (by decide) 7 100 1000 arrivals).2.mpr (by decide)⟩

/-- With the time for one message `nv_gsp_wait_init_done` returns with the read pointer inside that message. -/
theorem wait_inside_message :
    Lays longFirst.slot 61 longFirst.sent longFirst.wptr ∧
      (run (StatusReader.waitStep 1) ⟨longFirst, 61, [], .running 0⟩ [.turn, .turn]).phase = .returned ∧
      (run (StatusReader.waitStep 1) ⟨longFirst, 61, [], .running 0⟩ [.turn, .turn]).rptr = 62 ∧
      ¬Boundary (run (StatusReader.waitStep 1) ⟨longFirst, 61, [], .running 0⟩ [.turn, .turn]) := by
  refine ⟨longFirst_lays, rfl, rfl, ?_⟩
  rintro ⟨gone, -, rest, -, -, hlays⟩
  cases rest with
  | nil =>
    have hend : 62 = 2 := hlays
    cases hend
  | cons m ms =>
    -- what it would take for a header is a slot of the body
    have hbody : ⟨0, 0⟩ = m := hlays.1
    have hpos := hlays.2.1
    rw [← hbody] at hpos
    cases hpos

end StatusReader

end NovaOS.Drivers
