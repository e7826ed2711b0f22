import CBase.Config.Entries
import CBase.Lib.Assoc

/-!
# The entries of a config are an association list

`Holds cfg s` says that the cells behind `cfg.head` hold the pairs `s`, each string with its NUL, and
that `tail` and `count` agree with them. `set` assigns (`set_spec`), `get` looks up and returns what
stands before the first NUL (`Holds.get`), and `freeEntries` leaves nothing (`freeEntries_spec`). Where
the values have no NUL (`Repr`), `get` returns them whole (`get_spec`).
-/

namespace CBase.Config

open LinkedHeap Assoc

abbrev Store := List (List UInt8 × List UInt8)

def entryOf (x : List UInt8 × List UInt8) : Entry := ⟨strndup x.1, strndup x.2⟩

structure Repr (cfg : Config) (s : Store) : Prop where
  chain : ∃ l, Chain cfg.entries cfg.head l ∧ l.map Prod.snd = s.map entryOf ∧
    cfg.tail = l.getLast?.map Prod.fst
  count : cfg.count = UInt32.ofNat s.length
  nulFree : ∀ x ∈ s, 0 ∉ x.1 ∧ 0 ∉ x.2

/-- The same for values of any bytes: only the keys are C strings. -/
structure Holds (cfg : Config) (s : Store) : Prop where
  chain : ∃ l, Chain cfg.entries cfg.head l ∧ l.map Prod.snd = s.map entryOf ∧
    cfg.tail = l.getLast?.map Prod.fst
  count : cfg.count = UInt32.ofNat s.length
  nulFree : ∀ x ∈ s, 0 ∉ x.1

theorem Repr.holds {cfg : Config} {s : Store} (hr : Repr cfg s) : Holds cfg s :=
  ⟨hr.chain, hr.count, fun x hx => (hr.nulFree x hx).1⟩

theorem Holds.repr {cfg : Config} {s : Store} (hr : Holds cfg s) (hv : ∀ x ∈ s, 0 ∉ x.2) :
    Repr cfg s :=
  ⟨hr.chain, hr.count, fun x hx => ⟨hr.nulFree x hx, hv x hx⟩⟩

def keyList (cfg : Config) : List (List UInt8) :=
  (toList cfg.entries cfg.head).map fun x => cstr x.2.key

/-- The requests for memory from the `r`-th on are granted, `n` of them. -/
def granted (ok : Nat → Bool) (r n : Nat) : Bool := (List.range' r n).all ok

@[simp] theorem granted_zero (ok : Nat → Bool) (r : Nat) : granted ok r 0 = true := rfl

theorem granted_succ (ok : Nat → Bool) (r n : Nat) :
    granted ok r (n + 1) = (ok r && granted ok (r + 1) n) := by
  rw [granted, List.range'_succ, List.all_cons]
  rfl

theorem granted_add (ok : Nat → Bool) (r n m : Nat) :
    granted ok r (n + m) = (granted ok r n && granted ok (r + n) m) := by
  rw [granted, ← List.range'_append_1, List.all_append]
  rfl

theorem granted_of_all {ok : Nat → Bool} (h : ∀ n, ok n = true) (r n : Nat) :
    granted ok r n = true := by
  simp [granted, h]

theorem cstr_strndup {s : List UInt8} (h : 0 ∉ s) : cstr (strndup s) = s := by
  have hall : ∀ c ∈ s, decide (c ≠ 0) = true := fun c hc => by
    simpa using fun heq : c = 0 => h (heq ▸ hc)
  rw [cstr, strndup, List.takeWhile_append_of_pos hall]
  simp

/-- A C string ends at the first NUL. -/
theorem cstr_strndup_eq (s : List UInt8) : cstr (strndup s) = cstr s := by
  induction s with
  | nil => rfl
  | cons c s ih =>
    by_cases hc : c = 0
    · subst hc
      rfl
    · have hcons (t : List UInt8) : cstr (c :: t) = c :: cstr t :=
        List.takeWhile_cons_of_pos (by simpa using hc)
      rw [show strndup (c :: s) = c :: strndup s from rfl, hcons, hcons, ih]

theorem Holds.empty : Holds .empty [] := ⟨⟨[], rfl, rfl, rfl⟩, rfl, nofun⟩

section

variable {cfg : Config} {s : Store} {key value : List UInt8} {l : List (Ptr × Entry)}

/-- The search by key finds the first cell with the key, if the store has the key. -/
theorem find_entry (key : List UInt8) (hmap : l.map Prod.snd = s.map entryOf) (hnul : ∀ x ∈ s, 0 ∉ x.1) :
    (key ∉ keys s ∧ l.find? (fun x => cstr x.2.key == key) = none) ∨
    ∃ k v m lk p lm, s = k ++ (key, v) :: m ∧ key ∉ keys k ∧
      l = lk ++ (p, entryOf (key, v)) :: lm ∧ lk.map Prod.snd = k.map entryOf ∧
      lm.map Prod.snd = m.map entryOf ∧
      l.find? (fun x => cstr x.2.key == key) = some (p, entryOf (key, v)) := by
  induction s generalizing l with
  | nil =>
    obtain rfl : l = [] := by simpa using hmap
    exact .inl ⟨by simp, rfl⟩
  | cons x s ih =>
    obtain ⟨a, v⟩ := x
    cases l with
    | nil => cases hmap
    | cons y l =>
      obtain ⟨p, e⟩ := y
      rw [List.map_cons, List.map_cons, List.cons.injEq] at hmap
      obtain ⟨rfl, hmap⟩ := hmap
      have hkey : cstr (entryOf (a, v)).key = a := cstr_strndup (hnul (a, v) (by simp))
      by_cases ha : a = key
      · subst ha
        refine .inr ⟨[], v, s, [], p, l, rfl, by simp, rfl, rfl, hmap, ?_⟩
        rw [List.find?_cons_of_pos (by simp [hkey])]
      · have hskip : ((p, entryOf (a, v)) :: l).find? (fun x => cstr x.2.key == key) =
            l.find? (fun x => cstr x.2.key == key) :=
          List.find?_cons_of_neg (by simp [hkey, ha])
        rw [hskip]
        rcases ih hmap fun x hx => hnul x (List.mem_cons_of_mem _ hx) with
          ⟨hnot, hfind⟩ | ⟨k, w, m, lk, q, lm, rfl, hk, rfl, hlk, hlm, hfind⟩
        · exact .inl ⟨by simp [hnot, Ne.symm ha], hfind⟩
        · exact .inr ⟨(a, v) :: k, w, m, (p, _) :: lk, q, lm, rfl, by simp [hk, Ne.symm ha], rfl,
            by simp [hlk], hlm, hfind⟩

/-- `cb_config_get` looks the key up, and the string it returns ends at the first NUL. -/
theorem Holds.get (hr : Holds cfg s) (key : List UInt8) :
    get cfg key = some ((s.lookup key).map cstr) := by
  obtain ⟨l, hl, hmap, -⟩ := hr.chain
  unfold Config.get
  rw [find_chain hl]
  rcases find_entry key hmap hr.nulFree with
    ⟨hnot, hfind⟩ | ⟨k, v, m, lk, p, lm, rfl, hk, rfl, -, -, hfind⟩
  · rw [hfind, List.lookup_eq_none_iff.mpr]
    · rfl
    · intro x hx
      simpa using fun heq : key = x.1 => hnot (heq ▸ List.mem_map_of_mem hx)
  · obtain ⟨r, hcell⟩ := hl.mem_cell (a := p) (v := entryOf (key, v)) (by simp)
    have hnone : k.lookup key = none := by
      rw [List.lookup_eq_none_iff]
      intro x hx
      simpa using fun heq : key = x.1 => hk (heq ▸ List.mem_map_of_mem hx)
    rw [hfind, List.lookup_append, hnone, List.lookup_cons_self]
    simp [hcell, entryOf, cstr_strndup_eq]

/-- Without a NUL in the values, `cb_config_get` returns them whole. -/
theorem get_spec (hr : Repr cfg s) (key : List UInt8) : get cfg key = some (s.lookup key) := by
  rw [hr.holds.get]
  cases h : s.lookup key with
  | none => rfl
  | some v =>
    obtain ⟨k, m, rfl, -⟩ := List.lookup_eq_some_iff.mp h
    have hvalue : cstr v = v := by
      rw [← cstr_strndup_eq, cstr_strndup (hr.nulFree (key, v) (by simp)).2]
    rw [Option.map_some, hvalue]

theorem keys_spec (hr : Holds cfg s) : cfg.keyList = keys s := by
  obtain ⟨l, hl, hmap, -⟩ := hr.chain
  have hkeys : cfg.keyList = (l.map Prod.snd).map fun e => cstr e.key := by
    rw [keyList, toList_chain hl, List.map_map]
    rfl
  rw [hkeys, hmap, List.map_map]
  exact List.map_congr_left fun x hx => cstr_strndup (hr.nulFree x hx)

/-- The end of `cb__config_set` adds the pair behind the others. -/
theorem append_spec (hr : Holds cfg s) (hk : 0 ∉ key) (value : List UInt8) :
    ∃ cfg', append cfg ⟨strndup key, strndup value⟩ = some cfg' ∧ Holds cfg' (s ++ [(key, value)]) ∧
      cfg'.requests = cfg.requests ∧ cfg'.info = cfg.info ∧ cfg'.errorLine = cfg.errorLine := by
  obtain ⟨l, hl, hmap, htail⟩ := hr.chain
  have hnul : ∀ x ∈ s ++ [(key, value)], 0 ∉ x.1 := by
    intro x hx
    rcases List.mem_append.mp hx with hx | hx
    · exact hr.nulFree x hx
    · rw [List.mem_singleton.mp hx]
      exact hk
  have hcount : cfg.count + 1 = UInt32.ofNat (s ++ [(key, value)]).length := by
    rw [hr.count, List.length_append, List.length_singleton, UInt32.ofNat_add]
    rfl
  have hnew : (cfg.entries.alloc ⟨none, ⟨strndup key, strndup value⟩⟩).2.cell cfg.entries.brk =
      some ⟨none, entryOf (key, value)⟩ := by
    rw [Heap.alloc_cell, if_pos rfl]
    rfl
  rcases List.eq_nil_or_concat' l with rfl | ⟨l, ⟨q, e⟩, rfl⟩
  · obtain rfl : s = [] := by simpa using hmap.symm
    have hhead : cfg.head = none := hl
    have happend : append cfg ⟨strndup key, strndup value⟩ = some { cfg with
        head := some cfg.entries.brk
        tail := some cfg.entries.brk
        count := cfg.count + 1
        entries := (cfg.entries.alloc ⟨none, ⟨strndup key, strndup value⟩⟩).2 } := by
      simp [append, hhead]
    exact ⟨_, happend, ⟨⟨[(cfg.entries.brk, entryOf (key, value))], ⟨rfl, none, hnew, rfl⟩, rfl,
      rfl⟩, hcount, hnul⟩, rfl, rfl, rfl⟩
  · have hfresh : cfg.entries.brk ∉ ptrs (l ++ [(q, e)]) := fun hm =>
      Nat.lt_irrefl _ (hl.lt_brk hm)
    obtain ⟨h', hset, hl', -⟩ := Chain.append_cell (hl.alloc _) hnew hfresh
    have htail' : cfg.tail = some q := by simpa using htail
    obtain ⟨p, hhead⟩ : ∃ p, cfg.head = some p := by
      have hfirst := hl.head_eq
      cases l <;> exact ⟨_, hfirst⟩
    have happend : append cfg ⟨strndup key, strndup value⟩ = some { cfg with
        tail := some cfg.entries.brk
        count := cfg.count + 1
        entries := h' } := by
      simp [append, hhead, htail', hset]
    refine ⟨_, happend, ⟨⟨_, hl', ?_, by simp⟩, hcount, hnul⟩, rfl, rfl, rfl⟩
    rw [List.append_cons, List.map_append, hmap, List.map_append]
    rfl

/-- The first half of `cb__config_set` replaces the value of the cell that was found. -/
theorem replace_spec {k m : Store} {v : List UInt8} {lk lm : List (Ptr × Entry)} {p : Ptr}
    (hr : Holds cfg (k ++ (key, v) :: m)) (hk : 0 ∉ key) (hnot : key ∉ keys k)
    (hl : Chain cfg.entries cfg.head (lk ++ (p, entryOf (key, v)) :: lm))
    (htail : cfg.tail = (lk ++ (p, entryOf (key, v)) :: lm).getLast?.map Prod.fst)
    (hlk : lk.map Prod.snd = k.map entryOf) (hlm : lm.map Prod.snd = m.map entryOf) :
    ∃ h', cfg.entries.modify p ({ · with value := strndup value }) = some h' ∧
      Holds { cfg with entries := h' } (assign key value (k ++ (key, v) :: m)) := by
  obtain ⟨h', hmod, hl', -⟩ := hl.modify_cell ({ · with value := strndup value })
  refine ⟨h', hmod, ⟨⟨_, hl', ?_, ?_⟩, ?_, fun x hx => ?_⟩⟩
  · simp [assign_of_split hnot, hlk, hlm, entryOf]
  · rw [htail, ← List.getLast?_map, ← List.getLast?_map]
    simp
  · simp [hr.count, assign_of_split hnot]
  · rw [assign_of_split hnot, List.mem_append, List.mem_cons] at hx
    rcases hx with hx | rfl | hx
    · exact hr.nulFree x (by simp [hx])
    · exact hk
    · exact hr.nulFree x (by simp [hx])

/-- The requests of `cb__config_set`: a value, and for a new key also the key and the entry. -/
def setRequests (s : Store) (key : List UInt8) : Nat := if key ∈ keys s then 1 else 3

/-- `cb__config_set` assigns if its requests for memory are granted. -/
theorem set_spec (hr : Holds cfg s) (ok : Nat → Bool) (hk : 0 ∉ key) (value : List UInt8) :
    ∃ cfg', set ok cfg key value =
        some (bif granted ok cfg.requests (setRequests s key) then .ok else .configAllocFailed, cfg') ∧
      Holds cfg' (bif granted ok cfg.requests (setRequests s key) then assign key value s else s) ∧
      (granted ok cfg.requests (setRequests s key) = true →
        cfg'.requests = cfg.requests + setRequests s key) ∧
      cfg'.info = cfg.info ∧ cfg'.errorLine = cfg.errorLine := by
  obtain ⟨l, hl, hmap, htail⟩ := hr.chain
  have hasked (n : Nat) : Holds { cfg with requests := n } s := ⟨hr.chain, hr.count, hr.nulFree⟩
  rcases find_entry key hmap hr.nulFree with
    ⟨hnot, hfind⟩ | ⟨k, v, m, lk, p, lm, rfl, hnot, rfl, hlk, hlm, hfind⟩
  · have hsearch : find (fun e => cstr e.key == key) cfg.entries cfg.head = some none := by
      rw [find_chain hl, hfind]
      rfl
    rw [setRequests, if_neg hnot, granted_succ, granted_succ, granted_succ, granted_zero]
    cases h₀ : ok cfg.requests with
    | false =>
      exact ⟨{ cfg with requests := cfg.requests + 1 }, by simp [set, hsearch, Config.request, h₀],
        hasked _, by simp, rfl, rfl⟩
    | true =>
      cases h₁ : ok (cfg.requests + 1) with
      | false =>
        exact ⟨{ cfg with requests := cfg.requests + 1 + 1 },
          by simp [set, hsearch, Config.request, h₀, h₁], hasked _, by simp, rfl, rfl⟩
      | true =>
        cases h₂ : ok (cfg.requests + 1 + 1) with
        | false =>
          exact ⟨{ cfg with requests := cfg.requests + 1 + 1 + 1 },
            by simp [set, hsearch, Config.request, h₀, h₁, h₂], hasked _, by simp, rfl, rfl⟩
        | true =>
          obtain ⟨cfg', happend, hr', hreq, hinfo, hline⟩ :=
            append_spec (hasked (cfg.requests + 1 + 1 + 1)) hk value
          refine ⟨cfg', by simp [set, hsearch, Config.request, h₀, h₁, h₂, happend], ?_,
            fun _ => hreq, hinfo, hline⟩
          rwa [assign_of_not_mem hnot]
  · have hsearch : find (fun e => cstr e.key == key) cfg.entries cfg.head = some (some p) := by
      rw [find_chain hl, hfind]
      rfl
    rw [setRequests, if_pos (by simp [keys]), granted_succ, granted_zero]
    cases h₀ : ok cfg.requests with
    | false =>
      exact ⟨{ cfg with requests := cfg.requests + 1 }, by simp [set, hsearch, Config.request, h₀],
        hasked _, by simp, rfl, rfl⟩
    | true =>
      obtain ⟨h', hmod, hr'⟩ := replace_spec hr hk hnot hl htail hlk hlm
      exact ⟨{ cfg with entries := h', requests := cfg.requests + 1 },
        by simp [set, hsearch, Config.request, h₀, hmod], ⟨hr'.chain, hr'.count, hr'.nulFree⟩,
        fun _ => rfl, rfl, rfl⟩

/-- `cb__config_free_entries` leaves an empty list. -/
theorem freeEntries_spec (hr : Holds cfg s) :
    ∃ cfg', freeEntries cfg = some cfg' ∧ Holds cfg' [] ∧ cfg'.info = cfg.info ∧
      cfg'.errorLine = cfg.errorLine := by
  obtain ⟨l, hl, -⟩ := hr.chain
  obtain ⟨h', hfree, -⟩ := freeAll_chain hl
  exact ⟨{ cfg with head := none, tail := none, count := 0, entries := h' },
    by simp [freeEntries, hfree], ⟨⟨[], rfl, rfl, rfl⟩, rfl, nofun⟩, rfl, rfl⟩

end

end CBase.Config
