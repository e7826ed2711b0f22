import CBase.Bytes.Codec
import CBase.Lib.Run

/-!
# Calls on a writer in any order

A session is a writer with the marks that its frames got so far. A frame may end at any of them, in
any order and more than once.

* `WriteOp.call_spec`: one call, with the info that it returns and the bytes that it stores.
* `Session.Sound`: the position is in the buffer, and every mark lies two bytes below it.
* `writer_session_safe`: no session leaves the buffer, and after the first error nothing changes.
-/

namespace CBase.Bytes

open LittleEndian

/-! ## Sessions -/

inductive WriteOp where
  | scalar (s : Scalar)
  | bytes (src : List UInt8)
  | beginFrame
  | endFrame (mark : Nat)

/-- The call. Its answer has `*out_mark` of `cb_bytes_begin_frame_u16`. -/
def WriteOp.call (w : Writer) : WriteOp → Option (Answer Nat × Writer)
  | .scalar s => (writeScalar w s).map fun (info, w) => (⟨info, none⟩, w)
  | .bytes src => (writeBytes w src).map fun (info, w) => (⟨info, none⟩, w)
  | .beginFrame => (beginFrameU16 w).map fun (info, mark, w) => (⟨info, some mark⟩, w)
  | .endFrame mark => (endFrameU16 w mark).map fun (info, w) => (⟨info, none⟩, w)

/-- A writer and the marks of its frames. -/
structure Session where
  writer : Writer
  marks : List Nat

/-- A frame ends at a mark that the writer gave. -/
def WriteOp.Legal (marks : List Nat) : WriteOp → Prop
  | .endFrame mark => mark ∈ marks
  | _ => True

structure WriteCall where
  op : WriteOp
  answer : Answer Nat

inductive Writes (s : Session) : WriteCall → Session → Prop
  | call {op : WriteOp} {a : Answer Nat} {w : Writer} : op.Legal s.marks →
      op.call s.writer = some (a, w) →
      Writes s ⟨op, a⟩ ⟨w, if a.info = .ok then a.out.toList ++ s.marks else s.marks⟩

/-! ## One call -/

/-- The bytes that a call needs behind the position. -/
def WriteOp.need : WriteOp → Nat
  | .scalar s => s.type.width
  | .bytes src => src.length
  | .beginFrame => 2
  | .endFrame _ => 0

/-- The info that a call returns: the first error, or the reason why this call fails. -/
def WriteOp.verdict (w : Writer) (op : WriteOp) : Info :=
  if w.info ≠ .ok then w.info
  else match op with
    | .endFrame mark => if 0xFFFF < w.pos - (mark + 2) then .bytesFrameTooLarge else .ok
    | op => if w.cap - w.pos < op.need then .bytesOutOfBounds else .ok

/-- The indices that a successful call stores to. -/
def WriteOp.Stores (w : Writer) (i : Nat) : WriteOp → Prop
  | .endFrame mark => i = mark ∨ i = mark + 1
  | op => w.pos ≤ i ∧ i < w.pos + op.need

/-- What a call does, for a result. -/
structure WriteOp.Does (op : WriteOp) (w : Writer) (a : Answer Nat) (w' : Writer) : Prop where
  info : a.info = op.verdict w
  sticky : w'.info = a.info
  cap : w'.cap = w.cap
  length : w'.data.length = w.data.length
  failed : a.info ≠ .ok → w'.data = w.data ∧ w'.pos = w.pos
  pos : a.info = .ok → w'.pos = w.pos + op.need
  bound : w.pos ≤ w.cap → w'.pos ≤ w.cap
  inside : a.info = .ok → ∀ i, op.Stores w i → i < w.cap
  frame : a.info = .ok → ∀ i, ¬ op.Stores w i → w'.data[i]? = w.data[i]?
  mark : a.info = .ok → ∀ m ∈ a.out, m + 2 ≤ w'.pos

/-- The position is in the buffer, and what a mark points to was written. -/
structure Session.Sound (s : Session) : Prop where
  pos : s.writer.pos ≤ s.writer.cap
  cap : s.writer.cap = s.writer.data.length
  size : s.writer.cap < 2 ^ 64
  marks : ∀ mark ∈ s.marks, mark + 2 ≤ s.writer.pos

theorem Session.Sound.ready {s : Session} (hs : s.Sound) (hinfo : s.writer.info = .ok) :
    s.writer.Ready :=
  ⟨hinfo, hs.pos, hs.cap.le, hs.size⟩

/-- A call that fails or writes nothing keeps the buffer. -/
theorem WriteOp.Does.of_failed {op : WriteOp} {w : Writer} {info : Info} {out : Option Nat}
    (hverdict : op.verdict w = info) (hinfo : info ≠ .ok) :
    op.Does w ⟨info, out⟩ { w with info } :=
  ⟨hverdict.symm, rfl, rfl, rfl, fun _ => ⟨rfl, rfl⟩, fun h => (hinfo h).elim, id,
    fun h => (hinfo h).elim, fun h => (hinfo h).elim, fun h => (hinfo h).elim⟩

/-- A poisoned writer answers its first error and stays as it is. -/
theorem WriteOp.call_poisoned {w : Writer} (hw : w.info ≠ .ok) (op : WriteOp) :
    ∃ out, op.call w = some (⟨w.info, out⟩, w) := by
  cases op with
  | scalar s => exact ⟨none, by rw [call, (writeScalar_puts s).poisoned w hw]; rfl⟩
  | bytes src => exact ⟨none, by rw [call, (writeBytes_puts src).poisoned w hw]; rfl⟩
  | beginFrame => exact ⟨some 0, by simp [call, beginFrameU16, hw]⟩
  | endFrame mark => exact ⟨none, by simp [call, endFrameU16, hw]⟩

/-- A call that puts the bytes `xs` behind the position when there is room. -/
theorem WriteOp.put_spec {op : WriteOp} {w : Writer} {xs : List UInt8} (out out' : Option Nat)
    (hw : w.Ready) (hneed : op.need = xs.length)
    (hverdict : op.verdict w = if w.cap - w.pos < op.need then .bytesOutOfBounds else .ok)
    (hstores : ∀ i, op.Stores w i ↔ w.pos ≤ i ∧ i < w.pos + op.need)
    (hout : ∀ m ∈ out, m + 2 ≤ w.pos + xs.length)
    (hroom : w.pos + xs.length ≤ w.cap → op.call w = some (⟨.ok, out⟩, w.put xs))
    (hfull : ¬ w.pos + xs.length ≤ w.cap →
      op.call w = some (⟨.bytesOutOfBounds, out'⟩, { w with info := .bytesOutOfBounds })) :
    ∃ a w', op.call w = some (a, w') ∧ op.Does w a w' := by
  have hpos := hw.pos
  have hcap := hw.cap
  by_cases h : w.pos + xs.length ≤ w.cap
  · rw [if_neg (by omega)] at hverdict
    refine ⟨_, _, hroom h, hverdict.symm, hw.info, rfl, Memory.length_splice (by omega),
      fun h => (h rfl).elim, fun _ => by rw [hneed]; rfl, fun _ => h, fun _ i hi => ?_,
      fun _ i hi => ?_, fun _ => hout⟩
    · have hi := (hstores i).mp hi
      omega
    · rw [hstores, hneed] at hi
      exact Memory.getElem?_splice (by omega) hi
  · rw [if_pos (by omega)] at hverdict
    exact ⟨_, _, hfull h, .of_failed hverdict (by decide)⟩

/-- The body of a frame is what was written behind its mark. -/
theorem sizeSub_body {pos mark : Nat} (hmark : mark + 2 ≤ pos) (hpos : pos < 2 ^ 64) :
    sizeSub (sizeSub pos mark) 2 = pos - (mark + 2) := by
  simp only [sizeSub]
  omega

/-- The end of a frame stores the two bytes of its prefix, unless the body is too long. -/
theorem WriteOp.endFrame_spec {w : Writer} {mark : Nat} (hw : w.Ready) (hmark : mark + 2 ≤ w.pos) :
    ∃ a w', (WriteOp.endFrame mark).call w = some (a, w') ∧ (WriteOp.endFrame mark).Does w a w' := by
  have hpos := hw.pos
  have hcap := hw.cap
  have hsize := hw.size
  have hbody := sizeSub_body hmark (by omega)
  have hverdict : (WriteOp.endFrame mark).verdict w =
      if 0xFFFF < w.pos - (mark + 2) then .bytesFrameTooLarge else .ok :=
    if_neg (by simp [hw.info])
  by_cases hlarge : 0xFFFF < w.pos - (mark + 2)
  · rw [if_pos hlarge] at hverdict
    have hcall : (WriteOp.endFrame mark).call w =
        some (⟨.bytesFrameTooLarge, none⟩, { w with info := .bytesFrameTooLarge }) := by
      simp [call, endFrameU16, hw.info, hbody, hlarge]
    exact ⟨_, _, hcall, .of_failed hverdict (by decide)⟩
  · rw [if_neg hlarge] at hverdict
    have hlen := length_framePrefix (w.pos - (mark + 2))
    have hblit : Memory.blit w.data mark (framePrefix (w.pos - (mark + 2))) = some _ :=
      Memory.blit_of_le (by omega)
    have hcall : (WriteOp.endFrame mark).call w = some (⟨.ok, none⟩,
        { w with data := Memory.splice w.data mark (framePrefix (w.pos - (mark + 2))) }) := by
      rw [framePrefix] at hblit
      simp [call, endFrameU16, hw.info, hbody, hlarge, hblit, framePrefix]
    refine ⟨_, _, hcall, hverdict.symm, hw.info, rfl, Memory.length_splice (by omega),
      fun h => (h rfl).elim, fun _ => rfl, id, fun _ i hi => ?_, fun _ i hi => ?_, fun _ => nofun⟩
    · rcases hi with rfl | rfl <;> omega
    · refine Memory.getElem?_splice (by omega) fun hin => hi ?_
      have hcases : i = mark ∨ i = mark + 1 := by omega
      exact hcases

/-- What one call does, on a writer that is sound. -/
theorem WriteOp.call_spec {s : Session} (hs : s.Sound) {op : WriteOp} (hop : op.Legal s.marks) :
    ∃ a w', op.call s.writer = some (a, w') ∧ op.Does s.writer a w' := by
  by_cases hinfo : s.writer.info = .ok
  · have hw := hs.ready hinfo
    have hno : ¬ s.writer.info ≠ .ok := by simp [hinfo]
    cases op with
    | scalar v =>
      refine put_spec none none hw v.length_encode.symm (if_neg hno)
        (fun _ => Iff.rfl) nofun (fun hroom => ?_) fun hfull => ?_
      · rw [call, (writeScalar_puts v).room _ hw hroom]
        rfl
      · rw [call, (writeScalar_puts v).full _ hw hfull]
        rfl
    | bytes src =>
      refine put_spec none none hw rfl (if_neg hno) (fun _ => Iff.rfl) nofun
        (fun hroom => ?_) fun hfull => ?_
      · rw [call, (writeBytes_puts src).room _ hw hroom]
        rfl
      · rw [call, (writeBytes_puts src).full _ hw hfull]
        rfl
    | beginFrame =>
      have hlen := length_framePrefix 0
      refine put_spec (some s.writer.pos) (some 0) hw hlen.symm (if_neg hno)
        (fun _ => Iff.rfl) (fun m hm => ?_) (fun hroom => ?_) fun hfull => ?_
      · obtain rfl := Option.some.inj hm
        omega
      · rw [call, beginFrame_room hw (by omega)]
        rfl
      · rw [call, beginFrame_full hw (by omega)]
        rfl
    | endFrame mark => exact endFrame_spec hw (hs.marks mark hop)
  · obtain ⟨out, hcall⟩ := op.call_poisoned hinfo
    exact ⟨_, _, hcall, .of_failed (if_pos hinfo) hinfo⟩

/-! ## Runs -/

theorem Session.Sound.step {s s' : Session} {c : WriteCall} (hs : s.Sound) (h : Writes s c s') :
    s'.Sound ∧ c.op.Does s.writer c.answer s'.writer := by
  obtain @⟨op, a, w, hop, hcall⟩ := h
  obtain ⟨a', w', hcall', hdoes⟩ := op.call_spec hs hop
  obtain ⟨rfl, rfl⟩ := Prod.mk.inj (Option.some.inj (hcall.symm.trans hcall'))
  obtain ⟨hpos, hcap, hsize, hmarks⟩ := hs
  have hgrow : s.writer.pos ≤ w.pos := by
    by_cases hinfo : a.info = .ok
    · rw [hdoes.pos hinfo]
      exact Nat.le_add_right _ _
    · rw [(hdoes.failed hinfo).2]
  have hold : ∀ m ∈ s.marks, m + 2 ≤ w.pos := fun m hm => (hmarks m hm).trans hgrow
  refine ⟨⟨?_, ?_, ?_, fun m hm => ?_⟩, hdoes⟩
  · simp only
    rw [hdoes.cap]
    exact hdoes.bound hpos
  · simp only
    rw [hdoes.cap, hdoes.length, hcap]
  · simp only
    rw [hdoes.cap]
    exact hsize
  · simp only at hm
    split_ifs at hm with hinfo
    · rcases List.mem_append.mp hm with hm | hm
      · exact hdoes.mark hinfo m (Option.mem_toList.mp hm)
      · exact hold m hm
    · exact hold m hm

/-- A session with an error does not change. -/
theorem Session.stuck {s s' : Session} {c : WriteCall} (hinfo : s.writer.info ≠ .ok)
    (h : Writes s c s') : s' = s ∧ c.answer.info = s.writer.info := by
  obtain @⟨op, a, w, hop, hcall⟩ := h
  obtain ⟨out, hcall'⟩ := op.call_poisoned hinfo
  obtain ⟨rfl, rfl⟩ := Prod.mk.inj (Option.some.inj (hcall.symm.trans hcall'))
  exact ⟨by simp [hinfo], rfl⟩

theorem Session.Sound.init {buf : List UInt8} (hsize : buf.length < 2 ^ 64) :
    Session.Sound ⟨writerInit buf buf.length, []⟩ :=
  ⟨Nat.zero_le _, rfl, hsize, nofun⟩

/-- For every capacity and every order of calls, with frames that end at any mark that was given: the
position stays in the buffer, every call has a result (so that it only stores inside), it fails for
the reasons of `WriteOp.verdict` alone, a failed call changes nothing, and after the first error every
call answers that error. -/
theorem writer_session_safe {buf : List UInt8} {h : List (Taken Session WriteCall)} {s : Session}
    (hsize : buf.length < 2 ^ 64) (hrun : Run Writes ⟨writerInit buf buf.length, []⟩ h s) :
    s.writer.pos ≤ s.writer.cap ∧ s.writer.cap = buf.length ∧ s.writer.data.length = buf.length ∧
    (∀ mark ∈ s.marks, mark + 2 ≤ s.writer.pos) ∧
    (∀ op : WriteOp, op.Legal s.marks →
      ∃ a w', op.call s.writer = some (a, w') ∧ op.Does s.writer a w') ∧
    (s.writer.info ≠ .ok → ∀ h' s', Run Writes s h' s' →
      s' = s ∧ ∀ t ∈ h', t.label.answer.info = s.writer.info) := by
  obtain ⟨hs, hcap⟩ : s.Sound ∧ s.writer.cap = buf.length := by
    refine hrun.invariant (fun s => s.Sound ∧ s.writer.cap = buf.length) ⟨.init hsize, rfl⟩ ?_
    rintro s c s' ⟨hs, hcap⟩ hstep
    obtain ⟨hs', hdoes⟩ := hs.step hstep
    exact ⟨hs', hdoes.cap.trans hcap⟩
  refine ⟨hs.pos, hcap, hs.cap.symm.trans hcap, hs.marks, fun op hop => op.call_spec hs hop, ?_⟩
  intro hinfo h' s' hrun'
  refine hrun'.forall_taken (· = s) (fun t => t.label.answer.info = s.writer.info) rfl ?_
  rintro q c q' rfl hstep
  exact Session.stuck hinfo hstep

/-- A crossed pair of frames on a buffer of five bytes, and a write that does not fit. -/
theorem writer_session_safe_crossed : ∃ h s, Run Writes ⟨writerInit [0, 0, 0, 0, 0] 5, []⟩ h s ∧
    s.writer.data = [2, 0, 0, 0, 0] ∧ s.writer.pos ≤ 5 ∧ ∀ mark ∈ s.marks, mark + 2 ≤ s.writer.pos := by
  have hrun : Run Writes ⟨writerInit [0, 0, 0, 0, 0] 5, []⟩ _ _ :=
    .snoc (.snoc (.snoc (.snoc .nil (@Writes.call _ .beginFrame _ _ trivial rfl))
      (@Writes.call _ .beginFrame _ _ trivial rfl))
      (@Writes.call _ (.endFrame 0) _ _ (show 0 ∈ [2, 0] by decide) rfl))
      (@Writes.call _ (.scalar (.u32 7)) _ _ trivial rfl)
  obtain ⟨hpos, -, -, hmarks, -⟩ := writer_session_safe (by decide) hrun
  exact ⟨_, _, hrun, rfl, hpos, hmarks⟩

end CBase.Bytes
