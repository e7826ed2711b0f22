import CBase.Arena.Regions
import CBase.Arena.Retention

/-!
# The second round after a reset

A program that resets its arena and makes the same requests again gets the same answers: the second
round walks along the blocks that the first one visited. What the second round has ahead is what the
first one visits later, so the one block that a request looks at is always the right one, also where
the first round cut a tail off and put a new block in its place.

* `Follows`: the second run is where the first one was, and has the rest of its blocks ahead.
* `Replayed`: what a list of calls does, whatever `malloc` answers.
* `rounds_replay`: all rounds after the first give the same answers and ask `malloc` for nothing.
-/

namespace CBase.Arena

open LinkedHeap

/-- What a call asks for: the size and the alignment, or a reset. -/
def Call.request : Call → Option (UInt64 × UInt64)
  | .alloc size align _ _ => some (size, align)
  | .reset => none

def Call.answer : Call → Option AllocResult
  | .alloc _ _ _ r => some r
  | .reset => none

/-- A request reaches the call of `malloc`. -/
def Call.AsksMalloc (a : Arena) : Call → Prop
  | .alloc size align _ _ => ∃ cur tried wanted,
      place a size (effectiveAlign align) = some (.grow cur tried) ∧
      wantedSize a.strategy a.initialSize tried.size = some wanted
  | .reset => False

/-- A request within the domain of the allocator for which memory did not run out. -/
def Call.Served (a : Arena) : Call → Prop
  | .alloc size align malloc r =>
      (Call.alloc size align malloc r).Fits a ∧ r.info ≠ .allocFailed
  | .reset => False

/-- A round: a reset and then the requests `s`. -/
def round (s : List (UInt64 × UInt64)) : List (Option (UInt64 × UInt64)) := none :: s.map some

/-! ## What a request visits -/

/-- The blocks with nothing handed out. -/
def cleared (l : List (Ptr × Block)) : List (Ptr × Block) := l.map fun x => (x.1, x.2.cleared)

@[simp] theorem cleared_append (l m : List (Ptr × Block)) :
    cleared (l ++ m) = cleared l ++ cleared m := List.map_append

@[simp] theorem cleared_cleared (l : List (Ptr × Block)) : cleared (cleared l) = cleared l := by
  simp [cleared, Block.cleared]

namespace Zipper

variable {z z' : Zipper} {malloc : Malloc} {size align : UInt64} {r : AllocResult}

/-- The blocks up to the current one, with nothing handed out. -/
def visited (z : Zipper) : List (Ptr × Block) := cleared (z.before ++ [z.cur])

theorem cleared_chain (z : Zipper) : cleared z.chain = z.visited ++ cleared z.after := by
  rw [visited, ← cleared_append, chain, List.append_assoc, List.singleton_append]

@[simp] theorem visited_take (z : Zipper) (offset size : UInt64) :
    (z.take offset size).2.visited = z.visited := by
  simp [visited, take, cleared, Block.cleared, Block.bumped]

/-- A request only goes forward. -/
theorem alloc_visited (h : z.alloc malloc size align = some (r, z')) :
    z.visited <+: z'.visited ∧ z'.strategy = z.strategy := by
  rcases alloc_cases h with ⟨_, _, rfl⟩ | ⟨z₁, offset, hopen, htake⟩
  · exact ⟨List.prefix_rfl, rfl⟩
  · obtain rfl : z' = (z₁.take offset size).2 := congrArg Prod.snd htake
    rw [visited_take]
    cases hopen with
    | current => exact ⟨List.prefix_rfl, rfl⟩
    | next hafter =>
      simp only [forward, hafter, visited, cleared_append (z.before ++ [z.cur])]
      exact ⟨List.prefix_append _ _, rfl⟩
    | new =>
      simp only [insert, visited, cleared_append (z.before ++ [z.cur])]
      exact ⟨List.prefix_append _ _, rfl⟩

/-- A fixed arena keeps its blocks. -/
theorem alloc_fixed (h : z.alloc malloc size align = some (r, z')) (hz : z.strategy = .fixed) :
    cleared z'.chain = cleared z.chain := by
  rcases alloc_cases h with ⟨_, _, rfl⟩ | ⟨z₁, offset, hopen, htake⟩
  · rfl
  · obtain rfl : z' = (z₁.take offset size).2 := congrArg Prod.snd htake
    rw [cleared_chain, visited_take]
    cases hopen with
    | current => exact (cleared_chain z).symm
    | next hafter => simp [forward, hafter, visited, take, chain, cleared]
    | new _ hwanted => simp [hz, wantedSize] at hwanted

theorem place_of_fits (h : z.cur.2.fits (alignForward z.cur.2.used align) size = true) :
    z.place size align = .current z.cur.1 z.cur.2 := if_pos h

/-- Where the current block is too small, and the next one is not. -/
theorem place_of_next {x : Ptr × Block} {rest : List (Ptr × Block)}
    (hfull : ¬ z.cur.2.fits (alignForward z.cur.2.used align) size = true)
    (hafter : z.after = x :: rest) (hfits : x.2.fits (alignForward 0 align) size = true) :
    z.place size align = .next x.1 x.2 := by
  rw [place, if_neg hfull, hafter]
  exact if_pos hfits

/-- A reset goes back to the first block. -/
theorem reset_cons (z : Zipper) : z.reset.cur :: z.reset.after = cleared z.chain := by
  have hchain := reset_chain z
  rwa [chain, reset_before] at hchain

theorem reset_visited (z : Zipper) : z.reset.visited = [z.reset.cur] := by
  have hcleared : cleared (z.reset.cur :: z.reset.after) = z.reset.cur :: z.reset.after := by
    rw [reset_cons, cleared_cleared]
  rw [visited, reset_before]
  exact congrArg (fun x => [x]) (List.cons.inj hcleared).1

theorem wantedSize_eq_none {strategy : Strategy} {initialSize last : UInt64}
    (h : wantedSize strategy initialSize last = none) : strategy = .fixed := by
  cases strategy with
  | fixed => rfl
  | linear => cases h
  | exponential => cases h

/-- The place of a request depends on the sizes of the blocks ahead, not on what they have handed
out. -/
theorem place_grow_of_cleared {w : Zipper} {tried : Block} (hcur : w.cur = z.cur)
    (hafter : cleared w.after = cleared z.after) (h : z.place size align = .grow z.cur.1 tried) :
    ∃ tried', w.place size align = .grow w.cur.1 tried' := by
  unfold place at h ⊢
  rw [hcur]
  split at h
  · cases h
  · next hfull =>
    rw [if_neg hfull]
    cases hw : w.after with
    | nil => exact ⟨_, rfl⟩
    | cons y m =>
      cases hz : z.after with
      | nil => simp [hw, hz, cleared] at hafter
      | cons x l =>
        have hfits : y.2.fits (alignForward 0 align) size =
            x.2.fits (alignForward 0 align) size := by
          rw [hw, hz] at hafter
          have hsize : y.2.size = x.2.size := congrArg (·.2.size) (List.cons.inj hafter).1
          rw [Block.fits, Block.fits, hsize]
        simp only [hz] at h
        simp only [hfits]
        split at h
        · cases h
        · next hnext => exact ⟨_, if_neg hnext⟩

end Zipper

/-- A request that reaches the call of `malloc`, with the alignment not zero. -/
def Zipper.AsksMalloc (z : Zipper) (size align : UInt64) : Prop :=
  ∃ cur tried wanted, z.place size align = .grow cur tried ∧
    wantedSize z.strategy z.initialSize tried.size = some wanted

theorem asksMalloc_iff {a : Arena} {z : Zipper} (hr : Repr a z) {size align : UInt64}
    {malloc : Malloc} {r : AllocResult} :
    (Call.alloc size align malloc r).AsksMalloc a ↔ z.AsksMalloc size (effectiveAlign align) := by
  simp only [Call.AsksMalloc, Zipper.AsksMalloc, place_refines hr, hr.strategy, hr.initialSize,
    Option.some.injEq]

/-! ## Following a run -/

/-- `w` is where `z` is, and goes on along the blocks `final`. -/
structure Zipper.Behind (final : List (Ptr × Block)) (z w : Zipper) : Prop where
  strategy : w.strategy = z.strategy
  before : w.before = z.before
  cur : w.cur = z.cur
  ahead : w.visited ++ w.after = final

namespace Zipper.Behind

variable {z z₁ w : Zipper} {final : List (Ptr × Block)} {size align : UInt64}

theorem visited (hb : Behind final z w) : w.visited = z.visited := by
  rw [Zipper.visited, hb.before, hb.cur, ← Zipper.visited]

/-- The block that `z` goes to is the next one of `w`. -/
theorem after {x : Ptr × Block} (hb : Behind final z w) (hbefore : z₁.before = z.before ++ [z.cur])
    (hcur : z₁.cur = x) (hseen : z₁.visited <+: final) :
    ∃ rest, w.after = (x.1, x.2.cleared) :: rest := by
  obtain ⟨rest, hrest⟩ := hseen
  refine ⟨rest, ?_⟩
  rw [Zipper.visited, hbefore, hcur, cleared_append, ← Zipper.visited, ← hb.ahead, hb.visited,
    List.append_assoc] at hrest
  exact (List.append_cancel_left hrest).symm

/-- A request that the first run serves from the block it is at. -/
theorem stays (hb : Behind final z w)
    (hfits : z.cur.2.fits (alignForward z.cur.2.used (effectiveAlign align)) size = true) (malloc : Malloc) :
    ∃ w₁, w.alloc malloc size align =
        some ((z.take (alignForward z.cur.2.used (effectiveAlign align)) size).1, w₁) ∧
      Behind final (z.take (alignForward z.cur.2.used (effectiveAlign align)) size).2 w₁ ∧
      w₁.fresh = w.fresh ∧ ¬ w.AsksMalloc size (effectiveAlign align) := by
  rw [← hb.cur] at hfits ⊢
  have hplace := Zipper.place_of_fits hfits
  refine ⟨(w.take (alignForward w.cur.2.used (effectiveAlign align)) size).2, ?_, ?_, rfl, ?_⟩
  · simp only [Zipper.alloc, hplace, Zipper.take, hb.cur]
  · exact ⟨hb.strategy, hb.before, by simp [Zipper.take, hb.cur], by
      rw [Zipper.visited_take]; exact hb.ahead⟩
  · rintro ⟨cur, tried, wanted, hgrow, _⟩
    rw [hplace] at hgrow
    cases hgrow

/-- A request that the first run serves from another block: the next one, or a new one. -/
theorem goes_on (hb : Behind final z w) (hbefore : z₁.before = z.before ++ [z.cur])
    (hstrategy : z₁.strategy = z.strategy) (hseen : z₁.visited <+: final)
    (hfull : ¬ z.cur.2.fits (alignForward z.cur.2.used (effectiveAlign align)) size = true)
    (hfits : z₁.cur.2.fits (alignForward 0 (effectiveAlign align)) size = true) (malloc : Malloc) :
    ∃ w₁, w.alloc malloc size align = some ((z₁.take (alignForward 0 (effectiveAlign align)) size).1, w₁) ∧
      Behind final (z₁.take (alignForward 0 (effectiveAlign align)) size).2 w₁ ∧ w₁.fresh = w.fresh ∧
      ¬ w.AsksMalloc size (effectiveAlign align) := by
  obtain ⟨rest, hafter⟩ := hb.after hbefore rfl hseen
  rw [← hb.cur] at hfull
  have hplace := Zipper.place_of_next hfull hafter hfits
  refine ⟨(w.forward.take (alignForward 0 (effectiveAlign align)) size).2, ?_, ?_, ?_, ?_⟩
  · simp only [Zipper.alloc, hplace, Zipper.take, Zipper.forward, hafter, Block.cleared]
  · refine ⟨?_, ?_, ?_, ?_⟩
    · simpa [Zipper.take, Zipper.forward, hafter, hstrategy] using hb.strategy
    · simp [Zipper.take, Zipper.forward, hafter, hbefore, hb.before, hb.cur]
    · simp [Zipper.take, Zipper.forward, hafter, Block.cleared, Block.bumped]
    · rw [Zipper.visited_take, ← hb.ahead, hafter]
      simp [Zipper.take, Zipper.forward, hafter, Zipper.visited, cleared, Block.cleared]
  · simp [Zipper.take, Zipper.forward, hafter]
  · rintro ⟨cur, tried, wanted, hgrow, _⟩
    rw [hplace] at hgrow
    cases hgrow

/-- A request that a fixed arena refuses. -/
theorem refuses (hb : Behind final z w) {tried : Block}
    (hplace : z.place size (effectiveAlign align) = .grow z.cur.1 tried) (hfixed : z.strategy = .fixed) (hfinal : cleared z.chain = final) (malloc : Malloc) :
    w.alloc malloc size align = some (⟨.arenaOutOfMemory, none⟩, w) ∧
      ¬ w.AsksMalloc size (effectiveAlign align) := by
  have hafter : cleared w.after = cleared z.after := by
    have hahead := congrArg cleared hb.ahead
    rw [← hfinal, Zipper.cleared_chain, cleared_append, ← hb.visited] at hahead
    simpa [Zipper.visited] using hahead
  obtain ⟨tried', hgrow⟩ := Zipper.place_grow_of_cleared hb.cur hafter hplace
  have hnone : wantedSize w.strategy w.initialSize tried'.size = none := by
    rw [hb.strategy, hfixed]
    rfl
  refine ⟨?_, ?_⟩
  · simp only [Zipper.alloc, hgrow, Zipper.grow, hnone, Option.pure_def]
  · rintro ⟨cur, tried, wanted, _, hwanted⟩
    simp [hb.strategy, hfixed, wantedSize] at hwanted

/-- One request: the second run gives the answer of the first one, whatever `malloc` is. -/
theorem alloc (hb : Behind final z w) {m : Malloc} {r : AllocResult}
    (h : z.alloc m size align = some (r, z₁)) (hr : r.info ≠ .allocFailed)
    (ha : Align.PowerOfTwo (effectiveAlign align))
    (hsums : z.SumsFit size (effectiveAlign align)) (hseen : z₁.visited <+: final)
    (hfixed : z₁.strategy = .fixed → cleared z₁.chain = final) (malloc : Malloc) :
    ∃ w₁, w.alloc malloc size align = some (r, w₁) ∧ Behind final z₁ w₁ ∧ w₁.fresh = w.fresh ∧
      ¬ w.AsksMalloc size (effectiveAlign align) := by
  have hfull {p : Place} (hz : z.place size (effectiveAlign align) = p)
      (hp : p ≠ .current z.cur.1 z.cur.2) :
      ¬ z.cur.2.fits (alignForward z.cur.2.used (effectiveAlign align)) size = true :=
    fun hfits => hp (hz ▸ Zipper.place_of_fits hfits)
  unfold Zipper.alloc at h
  cases hz : z.place size (effectiveAlign align) with
  | current p b =>
    simp only [hz, Option.some.injEq] at h
    obtain ⟨rfl, rfl⟩ := Prod.mk.inj h
    exact hb.stays (Zipper.place_eq_current hz).2.2 malloc
  | next p b =>
    obtain ⟨rest, hafter, hfits⟩ := Zipper.place_eq_next hz
    simp only [hz, Option.some.injEq] at h
    obtain rfl : z₁ = (z.forward.take (alignForward 0 (effectiveAlign align)) size).2 :=
      congrArg Prod.snd h.symm
    rw [Zipper.visited_take] at hseen
    obtain rfl := congrArg Prod.fst h
    refine hb.goes_on ?_ ?_ hseen (hfull hz (by simp)) ?_ malloc
    · simp [Zipper.forward, hafter]
    · simp [Zipper.forward, hafter]
    · simpa [Zipper.forward, hafter] using hfits
  | grow cur tried =>
    obtain rfl := Zipper.place_eq_grow hz
    simp only [hz] at h
    rcases Zipper.grow_cases h with ⟨hw, rfl, rfl⟩ | ⟨wanted, hw, ⟨_, rfl, _⟩ | ⟨b, hb', htake⟩⟩
    · have hstrategy : z₁.strategy = .fixed := wantedSize_eq_none hw
      obtain ⟨halloc, hasks⟩ := hb.refuses hz hstrategy (hfixed hstrategy) malloc
      exact ⟨w, halloc, hb, rfl, hasks⟩
    · exact absurd rfl hr
    · obtain rfl : z₁ = ((z.insert b).take (alignForward 0 (effectiveAlign align)) size).2 :=
        congrArg Prod.snd htake
      obtain rfl := congrArg Prod.fst htake
      rw [Zipper.visited_take] at hseen
      have hbefore : (z.insert b).before = z.before ++ [z.cur] := rfl
      refine hb.goes_on hbefore rfl hseen (hfull hz (by simp)) ((fits_zero ha).mpr ?_) malloc
      have hsize : (z.insert b).cur.2.size = newBlockSize wanted size (effectiveAlign align) :=
        (newBlock_spec hb').1
      rw [hsize]
      exact le_newBlockSize (hsums.grow _ _ hz hw).1

end Zipper.Behind

/-- The arena `d` stands for lists that are behind. -/
def Follows (final : List (Ptr × Block)) (z : Zipper) (d : Arena) : Prop :=
  ∃ w, Repr d w ∧ Zipper.Behind final z w

/-! ## Calls that are made again -/

/-- What the calls `calls` do from `d` on, and the states `Q` they lead to: they can be made, and
whatever `malloc` is, they give `answers` and get no memory from it. -/
structure Replayed (d : Arena) (calls : List (Option (UInt64 × UInt64)))
    (answers : List (Option AllocResult)) (Q : Arena → Prop) : Prop where
  runs : ∃ l c, Run Step d l c ∧ l.map (·.label.request) = calls
  same : ∀ l c, Run Step d l c → l.map (·.label.request) = calls →
    l.map (·.label.answer) = answers ∧ (∀ t ∈ l, ¬ t.label.AsksMalloc t.pre) ∧
    c.blocks.brk = d.blocks.brk ∧ Q c

namespace Replayed

variable {d : Arena} {calls calls' : List (Option (UInt64 × UInt64))}
  {answers answers' : List (Option AllocResult)} {Q Q' : Arena → Prop}

theorem nil (h : Q d) : Replayed d [] [] Q where
  runs := ⟨[], d, .nil, rfl⟩
  same := by
    intro l c hrun hl
    obtain rfl := List.map_eq_nil_iff.mp hl
    obtain rfl := hrun.of_nil
    exact ⟨rfl, by simp, rfl, h⟩

theorem mono (h : Replayed d calls answers Q) (hq : ∀ c, Q c → Q' c) :
    Replayed d calls answers Q' where
  runs := h.runs
  same l c hrun hl :=
    have ⟨hanswers, hasks, hbrk, hc⟩ := h.same l c hrun hl
    ⟨hanswers, hasks, hbrk, hq c hc⟩

theorem append (h : Replayed d calls answers Q)
    (h' : ∀ c, Q c → Replayed c calls' answers' Q') :
    Replayed d (calls ++ calls') (answers ++ answers') Q' where
  runs := by
    obtain ⟨l, c, hrun, hl⟩ := h.runs
    obtain ⟨l', c', hrun', hl'⟩ := (h' c (h.same l c hrun hl).2.2.2).runs
    exact ⟨l ++ l', c', hrun.append hrun', by rw [List.map_append, hl, hl']⟩
  same := by
    intro k c' hrun hk
    obtain ⟨l, l', rfl, hl, hl'⟩ := List.map_eq_append_iff.mp hk
    obtain ⟨c, hrun₁, hrun₂⟩ := hrun.split
    obtain ⟨hanswers, hasks, hbrk, hq⟩ := h.same l c hrun₁ hl
    obtain ⟨hanswers', hasks', hbrk', hq'⟩ := (h' c hq).same l' c' hrun₂ hl'
    refine ⟨by rw [List.map_append, hanswers, hanswers'], fun t ht => ?_, hbrk'.trans hbrk, hq'⟩
    exact (List.mem_append.mp ht).elim (hasks t) (hasks' t)

theorem reset {d' : Arena} (h : arenaReset d = some d') (hbrk : d'.blocks.brk = d.blocks.brk)
    (hq : Q d') : Replayed d [none] [none] Q where
  runs := ⟨_, d', .single (.reset h), rfl⟩
  same := by
    intro l c hrun hl
    obtain ⟨⟨pre, label, post⟩, rfl, hlabel⟩ := List.map_eq_singleton_iff.mp hl
    obtain ⟨rfl, rfl, hs⟩ := hrun.of_singleton
    cases hs with
    | alloc => cases hlabel
    | reset h' =>
      obtain rfl := Option.some.inj (h.symm.trans h')
      exact ⟨rfl, by simp [Call.AsksMalloc], hbrk, hq⟩

theorem alloc {w : Zipper} {size align : UInt64} {r : AllocResult} (hr : Repr d w)
    (h : ∀ malloc, ∃ w₁, w.alloc malloc size align = some (r, w₁) ∧ w₁.fresh = w.fresh ∧
      ∀ c, Repr c w₁ → Q c) (hasks : ¬ w.AsksMalloc size (effectiveAlign align)) :
    Replayed d [some (size, align)] [some r] Q where
  runs := by
    obtain ⟨w₁, halloc, _⟩ := h fun _ => none
    obtain ⟨⟨r', c⟩, hcall, _⟩ := (halloc ▸ alloc_refines hr (fun _ => none) size align).right
    exact ⟨_, c, .single (.alloc (.null _) hcall), rfl⟩
  same := by
    intro l c hrun hl
    obtain ⟨⟨pre, label, post⟩, rfl, hlabel⟩ := List.map_eq_singleton_iff.mp hl
    obtain ⟨rfl, rfl, hs⟩ := hrun.of_singleton
    cases hs with
    | reset => cases hlabel
    | @alloc malloc _ _ r' _ _ hcall =>
      cases hlabel
      obtain ⟨w₁, halloc, hfresh, hq⟩ := h malloc
      obtain ⟨⟨_, _⟩, hz, rfl, hr'⟩ := (hcall ▸ alloc_refines hr malloc size align).left
      obtain ⟨rfl, rfl⟩ := Prod.mk.inj (Option.some.inj (halloc.symm.trans hz))
      refine ⟨rfl, ?_, by rw [hr'.brk, hfresh, hr.brk], hq _ hr'⟩
      simpa [asksMalloc_iff hr] using hasks

end Replayed

/-- The requests of the first round, and what making them again does. -/
theorem requests_replay {a b : Arena} {z₀ : Zipper} {k : List (Taken Arena Call)}
    (hr₀ : Repr a z₀) (hrun : Run Step a k b) (hk : ∀ t ∈ k, t.label.Served t.pre) :
    ∃ z, Repr b z ∧ z₀.visited <+: z.visited ∧ z.strategy = z₀.strategy ∧
      ∀ final, z.visited <+: final → (z.strategy = .fixed → cleared z.chain = final) →
        ∀ d, Follows final z₀ d →
          Replayed d (k.map (·.label.request)) (k.map (·.label.answer)) (Follows final z) := by
  induction hrun with
  | nil => exact ⟨z₀, hr₀, List.prefix_rfl, rfl, fun _ _ _ d hd => .nil hd⟩
  | @snoc k a b c hprev hs ih =>
    obtain ⟨z, hr, hpre, hstrategy, hreplay⟩ := ih fun t ht => hk t (List.mem_append_left _ ht)
    have hserved : c.Served a := hk ⟨a, c, b⟩ (List.mem_append_right _ (List.mem_singleton_self _))
    cases hs with
    | reset => exact absurd hserved id
    | @alloc m size align r _ _ hcall =>
      obtain ⟨⟨halign, hsums⟩, hinfo⟩ := hserved
      obtain ⟨⟨_, z'⟩, hz, rfl, hr'⟩ := (hcall ▸ alloc_refines hr m size align).left
      obtain ⟨hpre', hstrategy'⟩ := Zipper.alloc_visited hz
      refine ⟨z', hr', hpre.trans hpre', hstrategy'.trans hstrategy,
        fun final hseen hfixed d hd => ?_⟩
      rw [List.map_append, List.map_append]
      refine (hreplay final (hpre'.trans hseen) (fun hf => ?_) d hd).append ?_
      · rw [← Zipper.alloc_fixed hz hf]
        exact hfixed (hstrategy'.trans hf)
      · rintro c ⟨w, hw, hb⟩
        have hagain := hb.alloc hz hinfo (effectiveAlign_powerOfTwo halign)
          (Inv.sumsFit hr hsums) hseen hfixed
        refine .alloc hw (fun malloc => ?_) (hagain fun _ => none).choose_spec.2.2.2
        obtain ⟨w₁, halloc, hb₁, hfresh, _⟩ := hagain malloc
        exact ⟨w₁, halloc, hfresh, fun c hc => ⟨w₁, hc, hb₁⟩⟩

/-- The arena stands for the blocks `final`, whatever it has handed out of them. -/
def Grown (strategy : Strategy) (final : List (Ptr × Block)) (d : Arena) : Prop :=
  ∃ w, Repr d w ∧ w.strategy = strategy ∧ cleared w.chain = final

theorem Follows.grown {d : Arena} {final : List (Ptr × Block)} {z : Zipper}
    (hfinal : cleared final = final) (hd : Follows final z d) : Grown z.strategy final d := by
  obtain ⟨w, hr, hb⟩ := hd
  refine ⟨w, hr, hb.strategy, ?_⟩
  have hvisited : cleared w.visited = w.visited := cleared_cleared _
  have hahead : w.visited ++ cleared w.after = w.visited ++ w.after := by
    rw [← hb.ahead, cleared_append, hvisited] at hfinal
    exact hfinal
  rw [Zipper.cleared_chain, hahead, hb.ahead]

/-- After a reset, an arena that has grown is where it was after a reset before it grew. -/
theorem reset_follows {d : Arena} {final : List (Ptr × Block)} {z : Zipper}
    (hd : Grown z.strategy final d) (hseen : z.reset.visited <+: final) :
    Replayed d [none] [none] (Follows final z.reset) := by
  obtain ⟨w, hr, hstrategy, rfl⟩ := hd
  obtain ⟨d', hreset, hr'⟩ := reset_refines hr
  rw [Zipper.reset_visited, ← Zipper.reset_cons, List.cons_prefix_cons] at hseen
  refine .reset hreset ?_ ⟨w.reset, hr', ?_, ?_, hseen.1.symm, ?_⟩
  · rw [hr'.brk, hr.brk, Zipper.reset_fresh]
  · rw [Zipper.reset_strategy, Zipper.reset_strategy, hstrategy]
  · rw [Zipper.reset_before, Zipper.reset_before]
  · rw [Zipper.reset_visited, List.singleton_append, Zipper.reset_cons]

/-- A round splits into its reset and its requests. -/
theorem round_cases {a b : Arena} {k : List (Taken Arena Call)} {s : List (UInt64 × UInt64)}
    (hrun : Run Step a k b) (hk : k.map (·.label.request) = round s) :
    ∃ a₁ k', arenaReset a = some a₁ ∧ Run Step a₁ k' b ∧ k'.map (·.label.request) = s.map some ∧
      k.map (·.label.answer) = none :: k'.map (·.label.answer) ∧ ∀ t ∈ k', t ∈ k := by
  obtain ⟨⟨pre, label, post⟩, k', rfl, hlabel, hk'⟩ := List.map_eq_cons_iff.mp hk
  obtain ⟨hnil, hs, hrest⟩ := Run.at_entry (h := []) hrun
  obtain rfl := hnil.of_nil
  cases hs with
  | alloc => cases hlabel
  | reset h => exact ⟨post, k', h, hrest, hk', rfl, fun t ht => List.mem_cons_of_mem _ ht⟩

/-- The run of an arena keeps what it stands for. -/
theorem run_repr {a b : Arena} {k : List (Taken Arena Call)} (h : ∃ z, Repr a z)
    (hrun : Run Step a k b) : ∃ z, Repr b z := by
  refine hrun.invariant (fun a => ∃ z, Repr a z) h ?_
  rintro a c b ⟨z, hr⟩ hs
  cases hs with
  | @alloc m size align _ _ _ hcall =>
    obtain ⟨⟨_, z'⟩, _, _, hr'⟩ := (hcall ▸ alloc_refines hr m size align).left
    exact ⟨z', hr'⟩
  | reset hcall =>
    obtain ⟨b', hreset, hr'⟩ := reset_refines hr
    obtain rfl := Option.some.inj (hcall.symm.trans hreset)
    exact ⟨_, hr'⟩

/-- What a round leaves behind, and what every round from there does. -/
theorem round_replays {a b : Arena} {k : List (Taken Arena Call)} {s : List (UInt64 × UInt64)}
    (h : ∃ z, Repr a z) (hround : Run Step a k b) (hk : k.map (·.label.request) = round s)
    (hfits : ∀ t ∈ k, t.label.Fits t.pre)
    (hmemory : ∀ t ∈ k, ∀ r, t.label.answer = some r → r.info ≠ .allocFailed) :
    ∃ strategy final, Grown strategy final b ∧ ∀ d, Grown strategy final d →
      Replayed d (round s) (k.map (·.label.answer)) (Grown strategy final) := by
  obtain ⟨z, hr⟩ := h
  obtain ⟨a₁, k', hreset, hrun, hk', hanswers, hsub⟩ := round_cases hround hk
  obtain ⟨a₁', hreset', hr₁⟩ := reset_refines hr
  obtain rfl := Option.some.inj (hreset.symm.trans hreset')
  have hserved : ∀ t ∈ k', t.label.Served t.pre := by
    intro t ht
    have hmem : t.label.request ∈ s.map some := hk' ▸ List.mem_map_of_mem ht
    have hfit := hfits t (hsub t ht)
    have hinfo := hmemory t (hsub t ht)
    cases hlabel : t.label with
    | alloc size align malloc r =>
      rw [hlabel] at hfit hinfo
      exact ⟨hfit, hinfo r rfl⟩
    | reset => simp [hlabel, Call.request] at hmem
  obtain ⟨z', hr', hseen, hstrategy, hreplay⟩ := requests_replay hr₁ hrun hserved
  rw [Zipper.reset_strategy] at hstrategy
  have hfinal : z'.visited <+: cleared z'.chain := ⟨_, (Zipper.cleared_chain z').symm⟩
  refine ⟨z'.strategy, cleared z'.chain, ⟨z', hr', rfl, rfl⟩, fun d hd => ?_⟩
  have hstart := reset_follows (hstrategy ▸ hd) (hseen.trans hfinal)
  have hrest := fun c hc => (hreplay _ hfinal (fun _ => rfl) c hc).mono fun c hc =>
    hc.grown (cleared_cleared _)
  rw [round, ← hk', hanswers]
  exact hstart.append hrest

theorem Replayed.iterate {calls : List (Option (UInt64 × UInt64))}
    {answers : List (Option AllocResult)} {Q : Arena → Prop}
    (h : ∀ d, Q d → Replayed d calls answers Q) (n : Nat) {d : Arena} (hd : Q d) :
    Replayed d (List.replicate n calls).flatten (List.replicate n answers).flatten Q := by
  induction n generalizing d with
  | zero => exact .nil hd
  | succ n ih =>
    rw [List.replicate_succ, List.replicate_succ, List.flatten_cons, List.flatten_cons]
    exact (h d hd).append fun c hc => ih hc

/-- **Replay after a reset.** On an arena that was created and used in any way, let a reset and the
requests `s` run without `malloc` failing. Then the same round can be run again any number of times,
and whatever `malloc` is, each round gives the same answers as the first, request by request, and no
call of it reaches `malloc`. -/
theorem rounds_replay {a₀ a b : Arena} {malloc₀ : Malloc} {initial : UInt64} {strategy : Strategy}
    {h k : List (Taken Arena Call)} {s : List (UInt64 × UInt64)}
    (hcreate : arenaCreate malloc₀ initial strategy = some a₀) (hok : a₀.info = .ok)
    (hrun : Run Step a₀ h a) (hround : Run Step a k b)
    (hk : k.map (·.label.request) = round s) (hfits : ∀ t ∈ k, t.label.Fits t.pre)
    (hmemory : ∀ t ∈ k, ∀ r, t.label.answer = some r → r.info ≠ .allocFailed) (n : Nat) :
    (∃ l c, Run Step b l c ∧
      l.map (·.label.request) = (List.replicate n (round s)).flatten) ∧
    ∀ l c, Run Step b l c → l.map (·.label.request) = (List.replicate n (round s)).flatten →
      l.map (·.label.answer) = (List.replicate n (k.map (·.label.answer))).flatten ∧
      (∀ t ∈ l, ¬ t.label.AsksMalloc t.pre) ∧ c.blocks.brk = b.blocks.brk := by
  obtain ⟨block, _, hr₀⟩ := create_refines hcreate hok
  obtain ⟨kind, final, hb, hreplay⟩ :=
    round_replays (run_repr ⟨_, hr₀⟩ hrun) hround hk hfits hmemory
  have hreplayed := Replayed.iterate hreplay n hb
  refine ⟨hreplayed.runs, fun l c hl hcalls => ?_⟩
  obtain ⟨hanswers, hasks, hbrk, _⟩ := hreplayed.same l c hl hcalls
  exact ⟨hanswers, hasks, hbrk⟩

/-- A linear arena that grows by a block in its first round, and not in the second. -/
theorem rounds_replay_twice : ∃ b : Arena, b.blocks.brk = 2 ∧ ∀ l c, Run Step b l c →
    l.map (·.label.request) = round [(16, 0), (24, 0)] →
    l.map (·.label.answer) = [none, some ⟨.ok, some 4144⟩, some ⟨.ok, some 8240⟩] ∧
    c.blocks.brk = 2 := by
  have hstart : Run Step ((arenaCreate (mallocOnly 80 4096) 16 .linear).get rfl) [] _ := .nil
  have hreset := hstart.snoc (.reset (Option.some_get (by decide +kernel)).symm)
  have hone := hreset.snoc (.alloc_get 16 0 (.null _) (by decide +kernel))
  have hround := hone.snoc (.alloc_get 24 0 (m := mallocOnly 96 8192)
    (mallocOnly_ok (by decide) fun p hp c hc => by
      obtain rfl : p = 0 := Nat.lt_one_iff.mp hp
      cases hc
      exact .inr (by decide)) (by decide +kernel))
  have hreplay := rounds_replay (s := [(16, 0), (24, 0)]) (Option.some_get _).symm rfl hstart
    hround rfl ?_ ?_ 1
  · exact ⟨_, rfl, fun l c hl hcalls =>
      have ⟨hanswers, _, hbrk⟩ := hreplay.2 l c hl hcalls
      ⟨hanswers, hbrk⟩⟩
  · intro t ht
    simp only [List.nil_append, List.cons_append, List.mem_cons, List.not_mem_nil, or_false] at ht
    rcases ht with rfl | rfl | rfl
    · trivial
    · refine ⟨.inl rfl, fun cur c hcur hcell => ?_, fun cur tried wanted hplace _ => ?_⟩
      · cases hcur; cases hcell; decide
      · cases hplace
    · refine ⟨.inl rfl, fun cur c hcur hcell => ?_, fun cur tried wanted hplace hwanted => ?_⟩
      · cases hcur; cases hcell; decide
      · cases hplace; cases hwanted; decide
  · intro t ht r hr
    simp only [List.nil_append, List.cons_append, List.mem_cons, List.not_mem_nil, or_false] at ht
    rcases ht with rfl | rfl | rfl
    · cases hr
    · cases hr; decide
    · cases hr; decide

end CBase.Arena
