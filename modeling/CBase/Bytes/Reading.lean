import CBase.Bytes.Codec
import CBase.Lib.Run

/-!
# Calls on readers in any order

A frame yields a reader over its body, so a session is a list of readers: the one over the buffer, and
every sub-reader that a call on an earlier one has yielded. Any of them may be called next.

* `ReadOp.call_spec`: one call, with the bytes that it needs and the window of a sub-reader.
* `Window`: a reader over a part of the buffer, with its position inside.
* `reader_session_safe`: no session leaves the buffer, a failed call changes nothing but the info, and
  a reader with an error does not change.
-/

namespace CBase.Bytes

open LittleEndian

/-! ## Sessions -/

inductive ReadOp where
  | scalar (t : IntType)
  | bytes (n : Nat)
  | frame

/-- What a call stores for its caller. -/
inductive ReadOut where
  | scalar (s : Scalar)
  | bytes (xs : List UInt8)
  | sub (r : Reader)

def ReadOp.call (r : Reader) : ReadOp → Option (Answer ReadOut × Reader)
  | .scalar t => readAs .scalar (readScalar r t)
  | .bytes n => readAs .bytes (readBytes r n)
  | .frame => readAs .sub (readFrameU16 r)

/-- The sub-reader that a call yields. -/
def ReadOut.subs : Option ReadOut → List Reader
  | some (.sub r) => [r]
  | _ => []

/-- A call on the `i`-th reader and its answer. -/
structure ReadCall where
  index : Nat
  op : ReadOp
  answer : Answer ReadOut

inductive Reads (rs : List Reader) : ReadCall → List Reader → Prop
  | call {i : Nat} {op : ReadOp} {r r' : Reader} {a : Answer ReadOut} : rs[i]? = some r →
      op.call r = some (a, r') → Reads rs ⟨i, op, a⟩ (rs.set i r' ++ ReadOut.subs a.out)

/-! ## One call -/

/-- The bytes that a call needs. A frame needs its prefix and the length that is in it. -/
def ReadOp.need (r : Reader) : ReadOp → Nat
  | .scalar t => t.width
  | .bytes n => n
  | .frame => 2 + r.frameLength

def ReadOp.verdict (r : Reader) (op : ReadOp) : Info :=
  if r.info ≠ .ok then r.info
  else if r.len - r.pos < op.need r then .bytesOutOfBounds else .ok

/-- A reader with only the memory of its window. -/
def Reader.clip (r : Reader) : Reader := { r with data := r.data.take r.len }

def ReadOut.clip : ReadOut → ReadOut
  | .sub r => .sub r.clip
  | out => out

/-- An answer and a reader with only the memory of their windows. -/
def clipResult (x : Answer ReadOut × Reader) : Answer ReadOut × Reader :=
  (x.1.map ReadOut.clip, x.2.clip)

/-- What a call does, for a result. -/
structure ReadOp.Does (op : ReadOp) (r : Reader) (a : Answer ReadOut) (r' : Reader) : Prop where
  info : a.info = op.verdict r
  sticky : r'.info = a.info
  failed : a.info ≠ .ok → a.out = none ∧ r' = { r with info := a.info }
  skip : a.info = .ok → r' = r.skip (op.need r)
  sub : ∀ q ∈ ReadOut.subs a.out,
    q = readerInit (r.data.drop (r.pos + 2)) q.len ∧ r'.pos = r.pos + 2 + q.len
  inside : (op.call r.clip).map clipResult = some (clipResult (a, r'))

/-- A reader over the part of the buffer from `start` on, with its position inside. -/
structure Window (buf : List UInt8) (start : Nat) (r : Reader) : Prop where
  data : r.data = buf.drop start
  fits : start + r.len ≤ buf.length
  pos : r.pos ≤ r.len

theorem readScalar_poisoned {r : Reader} (hr : r.info ≠ .ok) (t : IntType) :
    readScalar r t = some (⟨r.info, none⟩, r) := by
  cases t <;> simp [readScalar, readU8, readU16Le, readU32Le, readU64Le, readI8, readI16Le,
    readI32Le, readI64Le, readAs, readLe, rCheck, hr, Answer.map]

/-- A poisoned reader answers its first error and stays as it is. -/
theorem ReadOp.call_poisoned {r : Reader} (hr : r.info ≠ .ok) (op : ReadOp) :
    op.call r = some (⟨r.info, none⟩, r) := by
  cases op with
  | scalar t => simp [call, readScalar_poisoned hr, readAs, Answer.map]
  | bytes n => simp [call, readBytes, rCheck, hr, readAs, Answer.map]
  | frame => simp [call, readFrameU16, hr, readAs, Answer.map]

def ReadOp.value (r : Reader) : ReadOp → ReadOut
  | .scalar t => .scalar (t.decode (r.rest.take t.width))
  | .bytes n => .bytes (r.rest.take n)
  | .frame => .sub (r.sub r.frameLength)

theorem ReadOp.call_room {r : Reader} (hr : r.Ready) {op : ReadOp}
    (h : op.need r ≤ r.rest.length) :
    op.call r = some (⟨.ok, some (op.value r)⟩, r.skip (op.need r)) := by
  cases op with
  | scalar t => exact ((readScalar_gets t).readAs _).room r hr h
  | bytes n => exact ((readBytes_gets n).readAs _).room r hr h
  | frame => simp [call, readFrame_room hr h, readAs, Answer.map, value, need, Reader.skip_skip]

theorem ReadOp.call_short {r : Reader} (hr : r.Ready) {op : ReadOp}
    (h : ¬ op.need r ≤ r.rest.length) :
    op.call r = some (⟨.bytesOutOfBounds, none⟩, { r with info := .bytesOutOfBounds }) := by
  cases op with
  | scalar t => exact ((readScalar_gets t).readAs _).short r hr h
  | bytes n => exact ((readBytes_gets n).readAs _).short r hr h
  | frame => simp [call, readFrame_short hr h, readAs, Answer.map]

/-! ## The memory that a call needs -/

section Clip

variable {r : Reader}

theorem Reader.clip_clip (r : Reader) : r.clip.clip = r.clip := by
  simp [Reader.clip, List.take_take]

theorem Reader.rest_clip (r : Reader) : r.clip.rest = r.rest := by
  simp [Reader.clip, Reader.rest, List.take_take]

theorem Reader.Ready.clip (hr : r.Ready) : r.clip.Ready := by
  have hlen := hr.len
  exact ⟨hr.info, hr.pos, by simp only [Reader.clip, List.length_take]; omega⟩

theorem ReadOp.need_clip (op : ReadOp) : op.need r.clip = op.need r := by
  cases op with
  | frame => simp only [need, Reader.frameLength, Reader.rest_clip]
  | _ => rfl

theorem Reader.clip_skip (r : Reader) (n : Nat) : r.clip.skip n = (r.skip n).clip := rfl

theorem Reader.clip_sub {n : Nat} (h : r.pos + (2 + n) ≤ r.len) :
    (r.clip.sub n).clip = (r.sub n).clip := by
  have hn : n ≤ r.len - (r.pos + 2) := by omega
  simp only [Reader.clip, Reader.sub, Reader.skip, readerInit, List.drop_take, List.take_take,
    Nat.min_eq_left hn]

/-- The value of a call does not depend on the memory behind the window. -/
theorem ReadOp.value_clip (hr : r.Ready) {op : ReadOp} (h : op.need r ≤ r.rest.length) :
    (op.value r.clip).clip = (op.value r).clip := by
  cases op with
  | scalar t => simp only [value, Reader.rest_clip]
  | bytes n => simp only [value, Reader.rest_clip]
  | frame =>
    have hlen : r.clip.frameLength = r.frameLength := by
      simp only [Reader.frameLength, Reader.rest_clip]
    have hpos := hr.pos
    rw [Reader.length_rest hr, need] at h
    rw [value, value, hlen, ReadOut.clip, ReadOut.clip, Reader.clip_sub (by omega)]

end Clip

/-- What one call does, on a reader that has its window. -/
theorem ReadOp.call_spec {buf : List UInt8} {start : Nat} {r : Reader} (hr : Window buf start r)
    (op : ReadOp) : ∃ a r', op.call r = some (a, r') ∧ op.Does r a r' := by
  by_cases hinfo : r.info = .ok
  · have hready : r.Ready := by
      refine ⟨hinfo, hr.pos, ?_⟩
      have hfits := hr.fits
      rw [hr.data, List.length_drop]
      omega
    have hlen := Reader.length_rest hready
    have hverdict : op.verdict r = if r.len - r.pos < op.need r then .bytesOutOfBounds else .ok :=
      if_neg (by simp [hinfo])
    by_cases h : op.need r ≤ r.rest.length
    · have hclip : op.need r.clip ≤ r.clip.rest.length := by
        rwa [ReadOp.need_clip, Reader.rest_clip]
      rw [if_neg (by omega)] at hverdict
      refine ⟨_, _, call_room hready h, hverdict.symm, hinfo, fun h => (h rfl).elim, fun _ => rfl,
        fun q hq => ?_, ?_⟩
      · cases op with
        | frame =>
          obtain rfl := List.mem_singleton.mp hq
          exact ⟨rfl, (Nat.add_assoc _ _ _).symm⟩
        | _ => cases hq
      · rw [call_room hready.clip hclip, ReadOp.need_clip, Reader.clip_skip]
        simp only [Option.map_some, clipResult, Answer.map, value_clip hready h, Reader.clip_clip]
    · have hclip : ¬ op.need r.clip ≤ r.clip.rest.length := by
        rwa [ReadOp.need_clip, Reader.rest_clip]
      rw [if_pos (by omega)] at hverdict
      refine ⟨_, _, call_short hready h, hverdict.symm, rfl, fun _ => ⟨rfl, rfl⟩, by simp,
        fun q hq => absurd hq List.not_mem_nil, ?_⟩
      rw [call_short hready.clip hclip]
      simp [clipResult, Answer.map, Reader.clip, List.take_take]
  · refine ⟨_, _, op.call_poisoned hinfo, (if_pos hinfo).symm, rfl, fun _ => ⟨rfl, rfl⟩,
      fun h => (hinfo h).elim, fun q hq => absurd hq List.not_mem_nil, ?_⟩
    have hclip : r.clip.info ≠ .ok := hinfo
    rw [op.call_poisoned hclip]
    simp [clipResult, Answer.map, Reader.clip_clip]
    rfl

/-! ## Runs -/

/-- Every reader of the session has its window in the buffer. -/
def AllWindows (buf : List UInt8) (rs : List Reader) : Prop := ∀ r ∈ rs, ∃ start, Window buf start r

theorem Window.skip {buf : List UInt8} {start n : Nat} {r : Reader} (hr : Window buf start r)
    (hn : r.pos + n ≤ r.len) : Window buf start (r.skip n) :=
  ⟨hr.data, hr.fits, hn⟩

theorem AllWindows.step {buf : List UInt8} {rs rs' : List Reader} {c : ReadCall}
    (hrs : AllWindows buf rs) (h : Reads rs c rs') : AllWindows buf rs' := by
  obtain @⟨i, op, r, r', a, hr, hcall⟩ := h
  obtain ⟨start, hwin⟩ := hrs r (List.mem_of_getElem? hr)
  obtain ⟨a', q, hcall', hdoes⟩ := op.call_spec hwin
  obtain ⟨rfl, rfl⟩ := Prod.mk.inj (Option.some.inj (hcall.symm.trans hcall'))
  have hwin' : Window buf start r' := by
    by_cases hinfo : a.info = .ok
    · have hok : op.verdict r = .ok := hdoes.info.symm.trans hinfo
      have hpos := hwin.pos
      rw [hdoes.skip hinfo]
      refine hwin.skip ?_
      rw [ReadOp.verdict] at hok
      split_ifs at hok with hready hroom
      · exact (hready hok).elim
      · omega
    · rw [(hdoes.failed hinfo).2]
      exact ⟨hwin.data, hwin.fits, hwin.pos⟩
  intro x hx
  rcases List.mem_append.mp hx with hx | hx
  · rcases List.mem_or_eq_of_mem_set hx with hx | rfl
    · exact hrs x hx
    · exact ⟨start, hwin'⟩
  · obtain ⟨hsub, hpos⟩ := hdoes.sub x hx
    have hfits := hwin'.fits
    have hbound := hwin'.pos
    refine ⟨start + (r.pos + 2), ?_, ?_, ?_⟩
    · rw [hsub, hwin.data, List.drop_drop]
      rfl
    · omega
    · rw [hsub]
      exact Nat.zero_le _

/-- A reader with an error does not change. -/
theorem reads_stuck {rs rs' : List Reader} {c : ReadCall} {i : Nat} {r : Reader}
    (hr : rs[i]? = some r) (hinfo : r.info ≠ .ok) (h : Reads rs c rs') :
    rs'[i]? = some r ∧ (c.index = i → c.answer = ⟨r.info, none⟩) := by
  obtain @⟨j, op, q, q', a, hq, hcall⟩ := h
  have hi : i < rs.length := (List.getElem?_eq_some_iff.mp hr).1
  by_cases hij : j = i
  · subst hij
    obtain rfl := Option.some.inj (hr.symm.trans hq)
    obtain ⟨rfl, rfl⟩ := Prod.mk.inj (Option.some.inj ((op.call_poisoned hinfo).symm.trans hcall))
    refine ⟨?_, fun _ => rfl⟩
    rw [List.getElem?_append_left (by simpa using hi), List.getElem?_set_self hi]
  · refine ⟨?_, fun h => (hij h).elim⟩
    rw [List.getElem?_append_left (by simpa using hi), List.getElem?_set_ne hij]
    exact hr

/-- For every buffer and every order of calls on the reader and on all sub-readers: each reader has a
window in the buffer and its position in the window, each call has a result and needs only the memory
of the window, it fails for the reasons of `ReadOp.verdict` alone, and then it changes only the info;
a reader with an error answers it ever after and has nothing left. -/
theorem reader_session_safe {buf : List UInt8} {h : List (Taken (List Reader) ReadCall)}
    {rs : List Reader} (hrun : Run Reads [readerInit buf buf.length] h rs) :
    AllWindows buf rs ∧
    (∀ r ∈ rs, ∀ op : ReadOp, ∃ a r', op.call r = some (a, r') ∧ op.Does r a r') ∧
    (∀ i r, rs[i]? = some r → r.info ≠ .ok → readerRemaining r = 0 ∧
      ∀ h' rs', Run Reads rs h' rs' → rs'[i]? = some r ∧
        ∀ t ∈ h', t.label.index = i → t.label.answer = ⟨r.info, none⟩) := by
  have hrs : AllWindows buf rs := by
    refine hrun.invariant (AllWindows buf) (fun r hr => ?_) fun _ _ _ hrs hstep => hrs.step hstep
    obtain rfl := List.mem_singleton.mp hr
    exact ⟨0, rfl, by simp [readerInit], Nat.zero_le _⟩
  refine ⟨hrs, fun r hr op => ?_, fun i r hr hinfo => ⟨if_pos hinfo, fun h' rs' hrun' => ?_⟩⟩
  · obtain ⟨start, hwin⟩ := hrs r hr
    exact op.call_spec hwin
  · exact hrun'.forall_taken (fun rs => rs[i]? = some r)
      (fun t => t.label.index = i → t.label.answer = ⟨r.info, none⟩) hr
      fun _ _ _ hr hstep => reads_stuck hr hinfo hstep

/-- A frame of one byte in a buffer of three, and a read on its sub-reader that does not fit. -/
theorem reader_session_safe_frame : ∃ h rs, Run Reads [readerInit [1, 0, 9] 3] h rs ∧
    rs.length = 2 ∧ AllWindows [1, 0, 9] rs := by
  have hrun : Run Reads [readerInit [1, 0, 9] 3] _ _ :=
    .snoc (.snoc .nil (@Reads.call _ 0 .frame _ _ _ rfl rfl))
      (@Reads.call _ 1 (.scalar .u16) _ _ _ rfl rfl)
  exact ⟨_, _, hrun, rfl, (@reader_session_safe [1, 0, 9] _ _ hrun).1⟩

end CBase.Bytes
