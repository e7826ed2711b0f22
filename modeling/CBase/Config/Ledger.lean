import CBase.Config.Buffers
import CBase.Config.Parse

/-!
# The memory of the config parser

The parser with its buffers at their addresses does step by step what the parser over entries does
(`Sim`), and the blocks that are allocated are those of the entries and of the buffers in use.

* `Sim.set`, `Sim.parseLine`, `Sim.parseLoop`, `Sim.freeEntries`: the steps.
* `parse_memory`, `parse_file_memory`: what is left after a parse, and after `cb_config_destroy`.
-/

namespace CBase.Config

open LinkedHeap

namespace RawConfig

/-! ## Entries with their buffers -/

/-- A buffer: its address and its bytes. -/
abbrev Buffer := Ptr × List UInt8

structure Slot where
  ptr : Ptr
  key : Buffer
  value : Buffer

namespace Slot

def raw (x : Slot) : Ptr × RawEntry := (x.ptr, ⟨x.key.1, x.value.1⟩)

def entry (x : Slot) : Ptr × Entry := (x.ptr, ⟨x.key.2, x.value.2⟩)

def buffers (x : Slot) : List Buffer := [x.key, x.value]

end Slot

/-- The config with the buffers in its entries, and the buffers `loose` besides. -/
structure Sim (raw : RawConfig) (cfg : Config) (loose : List Buffer) (es : List Slot) : Prop where
  info : raw.info = cfg.info
  errorLine : raw.errorLine = cfg.errorLine
  count : raw.count = cfg.count
  head : raw.head = cfg.head
  tail : raw.tail = cfg.tail
  requests : raw.requests = cfg.requests
  brk : raw.entries.brk = cfg.entries.brk
  last : cfg.tail = es.getLast?.map Slot.ptr
  chain : Chain raw.entries raw.head (es.map Slot.raw)
  cells : Contents raw.entries (es.map Slot.raw)
  buffers : Contents raw.buffers (loose ++ es.flatMap Slot.buffers)
  entries : Chain cfg.entries cfg.head (es.map Slot.entry)

namespace Sim

variable {raw raw' : RawConfig} {cfg cfg' : Config} {loose loose' : List Buffer}
  {es k m : List Slot} {x : Slot}
  {p : Ptr} {v : List UInt8}

theorem perm (h : Sim raw cfg loose es) (hp : loose.Perm loose') : Sim raw cfg loose' es :=
  { h with buffers := h.buffers.perm (hp.append_right _) }

theorem bytes_of_mem (h : Sim raw cfg loose es) (hm : (p, v) ∈ loose ++ es.flatMap Slot.buffers) :
    raw.bytes p = some v := by
  obtain ⟨r, hr⟩ := (h.buffers.cell p v).mpr hm
  rw [bytes, hr]
  rfl

theorem mem_key (hx : x ∈ es) : (x.key.1, x.key.2) ∈ loose ++ es.flatMap Slot.buffers :=
  List.mem_append_right _ (List.mem_flatMap.mpr ⟨x, hx, by simp [Slot.buffers]⟩)

theorem mem_value (hx : x ∈ es) : (x.value.1, x.value.2) ∈ loose ++ es.flatMap Slot.buffers :=
  List.mem_append_right _ (List.mem_flatMap.mpr ⟨x, hx, by simp [Slot.buffers]⟩)

/-! ## Buffers -/

/-- A request for a buffer. -/
theorem alloc (h : Sim raw cfg loose es) (ok : Nat → Bool) (v : List UInt8) :
    (ok cfg.requests = true ∧ ∃ p raw', raw.alloc ok v = (some p, raw') ∧
      Sim raw' { cfg with requests := cfg.requests + 1 } ((p, v) :: loose) es) ∨
    (ok cfg.requests = false ∧ ∃ raw', raw.alloc ok v = (none, raw') ∧
      Sim raw' { cfg with requests := cfg.requests + 1 } loose es) := by
  have hrequests : raw.requests + 1 = cfg.requests + 1 := by rw [h.requests]
  cases hok : ok cfg.requests with
  | true =>
    refine .inl ⟨rfl, raw.buffers.brk, { raw with
      requests := raw.requests + 1
      buffers := (raw.buffers.alloc ⟨none, v⟩).2 }, ?_, ?_⟩
    · simp [RawConfig.alloc, request, h.requests, hok]
    · exact { h with requests := hrequests, buffers := h.buffers.alloc ⟨none, v⟩ }
  | false =>
    refine .inr ⟨rfl, { raw with requests := raw.requests + 1 }, ?_, { h with requests := hrequests }⟩
    simp [RawConfig.alloc, request, h.requests, hok]

/-- A request for an entry. -/
theorem request (h : Sim raw cfg loose es) (ok : Nat → Bool) :
    raw.request ok = (ok cfg.requests, { raw with requests := raw.requests + 1 }) ∧
      Sim { raw with requests := raw.requests + 1 } { cfg with requests := cfg.requests + 1 } loose es := by
  have hrequests : raw.requests + 1 = cfg.requests + 1 := by rw [h.requests]
  exact ⟨by rw [RawConfig.request, h.requests], { h with requests := hrequests }⟩

theorem free (h : Sim raw cfg ((p, v) :: loose) es) :
    ∃ raw', raw.free p = some raw' ∧ Sim raw' cfg loose es := by
  obtain ⟨r, hcell⟩ := (h.buffers.cell p v).mpr (by simp)
  obtain ⟨buffers, hfree, -⟩ := Heap.free_spec hcell
  have hcontents : Contents buffers ([] ++ (loose ++ es.flatMap Slot.buffers)) :=
    Contents.free (k := []) (a := p) (v := v) h.buffers hfree
  exact ⟨{ raw with buffers }, by simp [RawConfig.free, hfree], { h with buffers := hcontents }⟩

/-- What is in a buffer changes. -/
theorem modify (h : Sim raw cfg ((p, v) :: loose) es) (f : List UInt8 → List UInt8) :
    ∃ buffers, raw.buffers.modify p f = some buffers ∧
      Sim { raw with buffers } cfg ((p, f v) :: loose) es := by
  obtain ⟨r, hcell⟩ := (h.buffers.cell p v).mpr (by simp)
  obtain ⟨buffers, hmod, -⟩ := Heap.modify_spec hcell f
  have hcontents : Contents buffers ([] ++ (p, f v) :: (loose ++ es.flatMap Slot.buffers)) :=
    Contents.modify (k := []) h.buffers hmod
  exact ⟨buffers, hmod, { h with buffers := hcontents }⟩

/-! ## Entries -/

theorem findLoop (hbytes : ∀ x ∈ es, raw.bytes x.key.1 = some x.key.2) (key : List UInt8) {n : Nat}
    {q : Option Ptr} (hl : Chain raw.entries q (es.map Slot.raw)) (hn : es.length ≤ n) :
    raw.findLoop key n q = some ((es.find? fun x => cstr x.key.2 == key).map Slot.ptr) := by
  induction es generalizing n q with
  | nil =>
    obtain rfl : q = none := hl
    cases n <;> rfl
  | cons x es ih =>
    obtain ⟨rfl, r, hcell, htail⟩ := hl
    cases n with
    | zero => cases hn
    | succ n =>
      have hkey := hbytes x List.mem_cons_self
      have hrest := ih (fun y hy => hbytes y (List.mem_cons_of_mem _ hy)) htail (Nat.le_of_succ_le_succ hn)
      unfold RawConfig.findLoop
      by_cases heq : cstr x.key.2 = key
      · rw [List.find?_cons_of_pos (by simpa using heq)]
        simp [hcell, hkey, heq]
      · rw [List.find?_cons_of_neg (by simpa using heq), ← hrest]
        simp [hcell, hkey, heq]

theorem findEntry (h : Sim raw cfg loose es) (key : List UInt8) :
    raw.findEntry key = some ((es.find? fun x => cstr x.key.2 == key).map Slot.ptr) := by
  have hlen : es.length ≤ raw.entries.brk := by simpa using h.chain.length_le_brk
  exact findLoop (fun x hx => h.bytes_of_mem (mem_key hx)) key h.chain hlen

theorem find (h : Sim raw cfg loose es) (key : List UInt8) :
    find (fun e => cstr e.key == key) cfg.entries cfg.head =
      some ((es.find? fun x => cstr x.key.2 == key).map Slot.ptr) := by
  rw [find_chain h.entries, List.find?_map, Option.map_map]
  rfl

theorem get (h : Sim raw cfg loose es) (key : List UInt8) : raw.get key = Config.get cfg key := by
  unfold RawConfig.get Config.get
  rw [h.findEntry, h.find]
  cases hfind : es.find? fun x => cstr x.key.2 == key with
  | none => rfl
  | some x =>
    have hx := List.mem_of_find?_eq_some hfind
    obtain ⟨r, hcell⟩ := h.chain.mem_cell (List.mem_map_of_mem hx : x.raw ∈ es.map Slot.raw)
    obtain ⟨r', hcell'⟩ := h.entries.mem_cell (List.mem_map_of_mem hx : x.entry ∈ es.map Slot.entry)
    have hvalue := h.bytes_of_mem (mem_value hx)
    simp [hcell, hcell', hvalue]

/-- The value of an entry is replaced by the first loose buffer, and the old one freed. -/
theorem replace (h : Sim raw cfg ((p, v) :: loose) (k ++ x :: m)) :
    ∃ r raw₁ entries entries', raw.entries.cell x.ptr = some ⟨r, x.raw.2⟩ ∧
      raw.free x.value.1 = some raw₁ ∧
      raw₁.entries.modify x.ptr ({ · with value := p }) = some entries ∧
      cfg.entries.modify x.ptr ({ · with value := v }) = some entries' ∧
      Sim { raw₁ with entries } { cfg with entries := entries' } loose
        (k ++ { x with value := (p, v) } :: m) := by
  have hchain := h.chain
  have hcells := h.cells
  have hentries := h.entries
  rw [List.map_append, List.map_cons] at hchain hcells hentries
  obtain ⟨r, hcell⟩ := hchain.mem_cell (a := x.ptr) (v := x.raw.2) (by simp [Slot.raw])
  obtain ⟨entries, hmod, hchain', hagree⟩ := hchain.modify_cell ({ · with value := p })
  obtain ⟨entries', hmod', hentries', hagree'⟩ := hentries.modify_cell ({ · with value := v })
  have hbuffers : Contents raw.buffers ([] ++ x.value ::
      ((p, v) :: loose ++ k.flatMap Slot.buffers ++ x.key :: m.flatMap Slot.buffers)) :=
    h.buffers.perm (List.perm_iff_count.mpr fun y => by
      simp [Slot.buffers, List.count_cons]
      omega)
  obtain ⟨s, hvalue⟩ := (hbuffers.cell x.value.1 x.value.2).mpr (by simp)
  obtain ⟨buffers, hfree, -⟩ := Heap.free_spec hvalue
  refine ⟨r, { raw with buffers }, entries, entries', hcell, by simp [RawConfig.free, hfree], hmod,
    hmod', ?_⟩
  refine { h with
    brk := by rw [hagree.brk, hagree'.brk, h.brk]
    last := ?_
    chain := by rwa [List.map_append, List.map_cons]
    cells := by
      rw [List.map_append, List.map_cons]
      exact hcells.modify hmod
    buffers := (hbuffers.free hfree).perm (List.perm_iff_count.mpr fun y => by
      simp [Slot.buffers, List.count_cons]
      omega)
    entries := by rwa [List.map_append, List.map_cons] }
  rw [h.last, ← List.getLast?_map, ← List.getLast?_map]
  simp

/-- An entry with the first two loose buffers, behind the others. -/
theorem append {a b : Buffer} (h : Sim raw cfg (a :: b :: loose) es)
    (happend : Config.append cfg ⟨a.2, b.2⟩ = some cfg') :
    ∃ raw' es', raw.append ⟨a.1, b.1⟩ = some raw' ∧ Sim raw' cfg' loose es' := by
  have hperm : (a :: b :: loose ++ es.flatMap Slot.buffers).Perm
      (loose ++ (es ++ [Slot.mk raw.entries.brk a b]).flatMap Slot.buffers) :=
    List.perm_iff_count.mpr fun y => by
      simp [Slot.buffers, List.count_cons]
      omega
  have hcount : raw.count + 1 = cfg.count + 1 := by rw [h.count]
  have hlast : (some cfg.entries.brk : Option Ptr) =
      (es ++ [Slot.mk raw.entries.brk a b]).getLast?.map Slot.ptr := by
    simp [h.brk]
  have hnew : (raw.entries.alloc ⟨none, ⟨a.1, b.1⟩⟩).2.cell raw.entries.brk =
      some ⟨none, ⟨a.1, b.1⟩⟩ := by
    rw [Heap.alloc_cell, if_pos rfl]
  have hnew' : (cfg.entries.alloc ⟨none, ⟨a.2, b.2⟩⟩).2.cell cfg.entries.brk =
      some ⟨none, ⟨a.2, b.2⟩⟩ := by
    rw [Heap.alloc_cell, if_pos rfl]
  have hcells : Contents (raw.entries.alloc ⟨none, ⟨a.1, b.1⟩⟩).2
      ((es ++ [Slot.mk raw.entries.brk a b]).map Slot.raw) := by
    refine (h.cells.alloc ⟨none, ⟨a.1, b.1⟩⟩).perm ?_
    rw [List.map_append]
    exact (List.perm_append_singleton _ _).symm
  rcases List.eq_nil_or_concat' es with rfl | ⟨k, x, rfl⟩
  · have hhead : cfg.head = none := h.entries
    have hhead' : raw.head = none := h.chain
    refine ⟨{ raw with
      head := some raw.entries.brk
      tail := some raw.entries.brk
      count := raw.count + 1
      entries := (raw.entries.alloc ⟨none, ⟨a.1, b.1⟩⟩).2 }, [Slot.mk raw.entries.brk a b],
      by simp [RawConfig.append, hhead'], ?_⟩
    simp only [Config.append, hhead, Option.pure_def, Option.bind_eq_bind, Option.bind_some,
      Heap.alloc_fst, Option.some.injEq] at happend
    subst happend
    exact { h with
      count := hcount
      head := by rw [h.brk]
      tail := by rw [h.brk]
      brk := by rw [Heap.alloc_brk, Heap.alloc_brk, h.brk]
      last := hlast
      chain := ⟨rfl, none, hnew, rfl⟩
      cells := hcells
      buffers := h.buffers.perm hperm
      entries := ⟨by rw [h.brk], none, by rw [h.brk]; exact hnew', rfl⟩ }
  · have hchain := h.chain.alloc ⟨none, ⟨a.1, b.1⟩⟩
    have hentries := h.entries.alloc ⟨none, ⟨a.2, b.2⟩⟩
    rw [List.map_append, List.map_singleton] at hchain hentries
    obtain ⟨entries, hset, hchain', hagree⟩ := Chain.append_cell hchain hnew fun hm =>
      Nat.lt_irrefl _ (h.chain.lt_brk (by rwa [List.map_append, List.map_singleton]))
    obtain ⟨entries', hset', hentries', hagree'⟩ := Chain.append_cell hentries hnew' fun hm =>
      Nat.lt_irrefl _ (h.entries.lt_brk (by rwa [List.map_append, List.map_singleton]))
    have htail : cfg.tail = some x.ptr := by simpa using h.last
    obtain ⟨q, hhead⟩ : ∃ q, cfg.head = some q := by
      have hfirst := h.entries.head_eq
      cases k <;> exact ⟨_, hfirst⟩
    refine ⟨{ raw with
      tail := some raw.entries.brk
      count := raw.count + 1
      entries }, k ++ [x] ++ [Slot.mk raw.entries.brk a b], ?_, ?_⟩
    · have hset : ((raw.entries.alloc ⟨none, ⟨a.1, b.1⟩⟩).2).setNext x.ptr (some raw.entries.brk) =
        some entries := hset
      simp [RawConfig.append, h.head, h.tail, hhead, htail, hset]
    · have hset' : ((cfg.entries.alloc ⟨none, ⟨a.2, b.2⟩⟩).2).setNext x.ptr (some cfg.entries.brk) =
        some entries' := hset'
      simp only [Config.append, hhead, htail, Option.pure_def, Option.bind_eq_bind,
        Option.bind_some, Heap.alloc_fst, hset', Option.some.injEq] at happend
      subst happend
      exact { h with
        count := hcount
        head := by rw [h.head, hhead]
        tail := by rw [h.brk]
        brk := by rw [hagree.brk, hagree'.brk, Heap.alloc_brk, Heap.alloc_brk, h.brk]
        last := hlast
        chain := by simpa [Slot.raw] using hchain'
        cells := hcells.setNext hset
        buffers := h.buffers.perm hperm
        entries := by simpa [Slot.entry, h.brk, hhead] using hentries' }

/-! ## Lines -/

/-- `cb__config_set` keeps the value it is given and owns a copy. -/
theorem set {ok : Nat → Bool} {key value : List UInt8} {info : Info}
    (h : Sim raw cfg ((p, value) :: loose) es)
    (hset : Config.set ok cfg key value = some (info, cfg')) :
    ∃ raw' es', raw.set ok key p = some (info, raw') ∧ Sim raw' cfg' ((p, value) :: loose) es' := by
  have hvalue : raw.bytes p = some value := h.bytes_of_mem (by simp)
  unfold Config.set at hset
  rw [h.find] at hset
  unfold RawConfig.set
  rw [h.findEntry, hvalue]
  rcases h.alloc ok (strndup value) with ⟨hok, a, raw₁, ha, h₁⟩ | ⟨hok, raw₁, ha, h₁⟩
  · simp only [Option.bind_eq_bind, Option.bind_some, Config.request, hok, Bool.not_true,
      Bool.false_eq_true, if_false] at hset
    simp only [Option.bind_eq_bind, Option.bind_some, ha]
    cases hfind : es.find? fun x => cstr x.key.2 == key with
    | some x =>
      obtain ⟨-, k, m, rfl, -⟩ := List.find?_eq_some_iff_append.mp hfind
      obtain ⟨r, raw₂, entries, entries', hcell, hfree, hmod, hmod', h₂⟩ := h₁.replace
      simp only [hfind, Option.map_some, hmod', Option.bind_some, Option.pure_def,
        Option.some.injEq, Prod.mk.injEq] at hset
      obtain ⟨rfl, rfl⟩ := hset
      have hfree : raw₁.free x.raw.2.value = some raw₂ := hfree
      refine ⟨_, _, ?_, h₂⟩
      simp [hcell, hfree, hmod]
    | none =>
      simp only [hfind, Option.map_none] at hset
      simp only [Option.map_none]
      rcases h₁.alloc ok (strndup key) with ⟨hok₁, b, raw₂, hb, h₂⟩ | ⟨hok₁, raw₂, hb, h₂⟩
      · obtain ⟨hrequest, h₃⟩ := h₂.request ok
        simp only [hok₁, Bool.not_true, Bool.false_eq_true, if_false] at hset
        simp only [hb, hrequest]
        cases hok₂ : ok (cfg.requests + 1 + 1) with
        | true =>
          simp only [hok₂, Bool.not_true, Bool.false_eq_true, if_false] at hset
          simp only [Bool.not_true, Bool.false_eq_true, if_false]
          obtain ⟨cfg₄, happend, hset⟩ := Option.bind_eq_some_iff.mp hset
          simp only [Option.pure_def, Option.some.injEq, Prod.mk.injEq] at hset
          obtain ⟨rfl, rfl⟩ := hset
          obtain ⟨raw₄, es', hraw, h₄⟩ := h₃.append happend
          exact ⟨raw₄, es', by rw [hraw]; rfl, h₄⟩
        | false =>
          simp only [hok₂, Bool.not_false, if_true, Option.pure_def, Option.some.injEq,
            Prod.mk.injEq] at hset
          obtain ⟨rfl, rfl⟩ := hset
          obtain ⟨raw₄, hfree, h₄⟩ := h₃.free
          obtain ⟨raw₅, hfree', h₅⟩ := h₄.free
          exact ⟨raw₅, es, by simp [hfree, hfree'], h₅⟩
      · simp only [hok₁, Bool.not_false, if_true, Option.pure_def, Option.some.injEq,
          Prod.mk.injEq] at hset
        obtain ⟨rfl, rfl⟩ := hset
        obtain ⟨raw₃, hfree, h₃⟩ := h₂.free
        exact ⟨raw₃, es, by simp [hb, hfree], h₃⟩
  · simp only [Option.bind_eq_bind, Option.bind_some, Config.request, hok, Bool.not_false, if_true,
      Option.pure_def, Option.some.injEq, Prod.mk.injEq] at hset
    obtain ⟨rfl, rfl⟩ := hset
    exact ⟨raw₁, es, by simp [ha], h₁⟩

/-- The buffer for a decoded value is freed whatever becomes of the line. -/
theorem assignLine {ok : Nat → Bool} {key rhs : List UInt8} {info : Info} (h : Sim raw cfg loose es)
    (hline : (let (got, cfg) := cfg.request ok
      if !got then some (.configAllocFailed, cfg)
      else
        match decodeValue rhs rhs.length with
        | .error info => some (info, cfg)
        | .ok value => Config.set ok cfg key value) = some (info, cfg')) :
    ∃ raw' es', raw.assignLine ok key rhs = some (info, raw') ∧ Sim raw' cfg' loose es' := by
  unfold RawConfig.assignLine
  rcases h.alloc ok (List.replicate (rhs.length + 1) 0) with
    ⟨hok, p, raw₁, hp, h₁⟩ | ⟨hok, raw₁, hp, h₁⟩
  · simp only [Config.request, hok, Bool.not_true, Bool.false_eq_true, if_false] at hline
    simp only [hp]
    cases hvalue : decodeValue rhs rhs.length with
    | error info' =>
      rw [hvalue] at hline
      cases hline
      obtain ⟨raw₂, hfree, h₂⟩ := h₁.free
      exact ⟨raw₂, es, by simp [hfree], h₂⟩
    | ok value =>
      rw [hvalue] at hline
      obtain ⟨buffers, hmod, h₂⟩ := h₁.modify fun _ => value
      obtain ⟨raw₃, es', hset, h₃⟩ := h₂.set hline
      obtain ⟨raw₄, hfree, h₄⟩ := h₃.free
      exact ⟨raw₄, es', by simp [hmod, hset, hfree], h₄⟩
  · simp only [Config.request, hok, Bool.not_false, if_true, Option.some.injEq, Prod.mk.injEq]
      at hline
    obtain ⟨rfl, rfl⟩ := hline
    exact ⟨raw₁, es, by simp [hp], h₁⟩

theorem parseLine {ok : Nat → Bool} {line : List UInt8} {info : Info} (h : Sim raw cfg loose es)
    (hline : Config.parseLine ok cfg line = some (info, cfg')) :
    ∃ raw' es', raw.parseLine ok line = some (info, raw') ∧ Sim raw' cfg' loose es' := by
  unfold Config.parseLine at hline
  unfold RawConfig.parseLine
  cases hdrop : line.dropWhile isSpace with
  | nil =>
    rw [hdrop] at hline
    cases hline
    exact ⟨raw, es, rfl, h⟩
  | cons c rest =>
    rw [hdrop] at hline
    by_cases hcomment : c = hash ∨ c = semicolon
    · simp only [if_pos hcomment] at hline ⊢
      cases hline
      exact ⟨raw, es, rfl, h⟩
    · simp only [if_neg hcomment] at hline ⊢
      cases hafter : (c :: rest).dropWhile (· ≠ equals) with
      | nil =>
        rw [hafter] at hline
        cases hline
        exact ⟨raw, es, rfl, h⟩
      | cons d rhs =>
        rw [hafter] at hline
        cases hkey : keyValid (((c :: rest).takeWhile (· ≠ equals)).rdropWhile isSpace) with
        | false =>
          simp only [hkey, Bool.not_false, if_true] at hline ⊢
          cases hline
          exact ⟨raw, es, rfl, h⟩
        | true =>
          simp only [hkey, Bool.not_true, Bool.false_eq_true, if_false] at hline ⊢
          exact h.assignLine hline

/-! ## Parse and destroy -/

theorem freeLoop {n : Nat} {q : Option Ptr} (hl : Chain raw.entries q (es.map Slot.raw))
    (hcells : Contents raw.entries (es.map Slot.raw))
    (hbuffers : Contents raw.buffers (es.flatMap Slot.buffers ++ loose)) (hn : es.length ≤ n) :
    ∃ entries buffers, raw.freeLoop n q = some { raw with entries, buffers } ∧
      entries.brk = raw.entries.brk ∧ Contents entries [] ∧ Contents buffers loose := by
  induction es generalizing raw n q with
  | nil =>
    obtain rfl : q = none := hl
    exact ⟨raw.entries, raw.buffers, by cases n <;> rfl, rfl, hcells, hbuffers⟩
  | cons x es ih =>
    obtain ⟨rfl, r, hcell, htail⟩ := hl
    cases n with
    | zero => cases hn
    | succ n =>
      have hb : Contents raw.buffers ([] ++ x.key :: ([] ++ x.value ::
        (es.flatMap Slot.buffers ++ loose))) := hbuffers
      obtain ⟨s, hkey⟩ := (hb.cell x.key.1 x.key.2).mpr (by simp)
      obtain ⟨buffers, hfree, -⟩ := Heap.free_spec hkey
      have hb := hb.free hfree
      obtain ⟨t, hvalue⟩ := (hb.cell x.value.1 x.value.2).mpr (by simp)
      obtain ⟨buffers', hfree', -⟩ := Heap.free_spec hvalue
      have hb := hb.free hfree'
      obtain ⟨entries, hfreed, hnone, hagree⟩ := Heap.free_spec hcell
      have hnd := hcells.nodup
      rw [List.map_cons, ptrs_cons, List.nodup_cons] at hnd
      have htail := htail.agree hagree fun b hb hm => by
        rw [List.mem_singleton] at hm
        subst hm
        exact hnd.1 hb
      have hcells : Contents entries ([] ++ es.map Slot.raw) :=
        Contents.free (k := []) (a := x.ptr) (v := x.raw.2) hcells hfreed
      obtain ⟨entries', buffers'', hrun, hbrk, hc, hb⟩ :=
        @ih { raw with entries, buffers := buffers' } _ _ htail hcells hb
          (Nat.le_of_succ_le_succ hn)
      refine ⟨entries', buffers'', ?_, hbrk.trans hagree.brk, hc, hb⟩
      simp [RawConfig.freeLoop, hcell, RawConfig.free, hfree, hfree', hfreed, hrun]

theorem freeEntries (h : Sim raw cfg loose es) (hfree : Config.freeEntries cfg = some cfg') :
    ∃ raw', raw.freeEntries = some raw' ∧ Sim raw' cfg' loose [] := by
  obtain ⟨entries', hall, hagree, -⟩ := freeAll_chain h.entries
  simp only [Config.freeEntries, hall, Option.pure_def, Option.bind_eq_bind, Option.bind_some,
    Option.some.injEq] at hfree
  subst hfree
  have hlen : es.length ≤ raw.entries.brk := by simpa using h.chain.length_le_brk
  obtain ⟨entries, buffers, hrun, hbrk, hc, hb⟩ := freeLoop h.chain h.cells
    (h.buffers.perm List.perm_append_comm) hlen
  refine ⟨{ raw with head := none, tail := none, count := 0, entries, buffers },
    by simp [RawConfig.freeEntries, hrun], ?_⟩
  exact { h with
    count := rfl
    head := rfl
    tail := rfl
    brk := by rw [hbrk, hagree.brk, h.brk]
    last := rfl
    chain := rfl
    cells := hc
    buffers := by rwa [List.flatMap_nil, List.append_nil]
    entries := rfl }

theorem fail {info : Info} {line : UInt32} (h : Sim raw cfg loose es)
    (hfail : Config.fail cfg info line = some cfg') :
    ∃ raw', raw.fail info line = some raw' ∧ Sim raw' cfg' loose [] := by
  have h' : Sim { raw with info, errorLine := line } { cfg with info, errorLine := line } loose es :=
    { h with info := rfl, errorLine := rfl }
  exact h'.freeEntries hfail

theorem parseLoop {ok : Nat → Bool} {n : Nat} {line : UInt32} {text : List UInt8}
    (h : Sim raw cfg loose es) (hloop : Config.parseLoop ok n cfg line text = some cfg') :
    ∃ raw' es', raw.parseLoop ok n line text = some raw' ∧ Sim raw' cfg' loose es' := by
  induction n generalizing raw cfg es line text with
  | zero => cases hloop
  | succ n ih =>
    unfold Config.parseLoop at hloop
    unfold RawConfig.parseLoop
    by_cases htext : text = []
    · simp only [htext, if_true] at hloop ⊢
      cases hloop
      exact ⟨raw, es, rfl, h⟩
    simp only [htext, if_false] at hloop ⊢
    by_cases hlong : lineMax < (stripCr (text.takeWhile (· ≠ newline))).length
    · simp only [if_pos hlong] at hloop ⊢
      obtain ⟨raw', hraw, h'⟩ := h.fail hloop
      exact ⟨raw', [], hraw, h'⟩
    · simp only [if_neg hlong, Option.bind_eq_bind] at hloop ⊢
      obtain ⟨⟨info, cfg₁⟩, hline, hloop⟩ := Option.bind_eq_some_iff.mp hloop
      obtain ⟨raw₁, es₁, hraw, h₁⟩ := h.parseLine hline
      simp only [hraw, Option.bind_some]
      by_cases hinfo : info = .ok
      · simp only [hinfo, ne_eq, not_true_eq_false, if_false] at hloop ⊢
        generalize text.drop _ = after at hloop ⊢
        cases after with
        | nil =>
          cases hloop
          exact ⟨raw₁, es₁, rfl, h₁⟩
        | cons c rest => exact ih h₁ hloop
      · simp only [ne_eq, hinfo, not_false_eq_true, if_true] at hloop ⊢
        obtain ⟨raw', hraw', h'⟩ := h₁.fail hloop
        exact ⟨raw', [], hraw', h'⟩

/-- What a file is read into is parsed by a config without entries. -/
theorem fresh (h : Sim raw cfg loose []) : Sim raw.fresh
    { cfg with info := .ok, errorLine := 0, count := 0, head := none, tail := none } loose [] :=
  { h with
    info := rfl
    errorLine := rfl
    count := rfl
    head := rfl
    tail := rfl
    last := rfl
    chain := rfl
    entries := rfl }

theorem empty : Sim .empty .empty [] [] where
  info := rfl
  errorLine := rfl
  count := rfl
  head := rfl
  tail := rfl
  requests := rfl
  brk := rfl
  last := rfl
  chain := rfl
  cells := .empty
  buffers := .empty
  entries := rfl

end Sim

/-! ## The results -/

/-- The memory of a config is exactly that of the entries in its list and of their keys and values,
each once. -/
def Owned (raw : RawConfig) : Prop := ∃ es : List Slot,
  Chain raw.entries raw.head (es.map Slot.raw) ∧ Contents raw.entries (es.map Slot.raw) ∧
    Contents raw.buffers (es.flatMap Slot.buffers)

structure Freed (raw : RawConfig) : Prop where
  entries : ∀ p, raw.entries.cell p = none
  buffers : ∀ p, raw.buffers.cell p = none

structure Same (raw : RawConfig) (cfg : Config) : Prop where
  info : raw.info = cfg.info
  errorLine : raw.errorLine = cfg.errorLine
  count : raw.count = cfg.count
  get : ∀ key, raw.get key = Config.get cfg key

/-- A config after a parse: its memory is its own, a failed one has none, and `cb_config_destroy` leaves
nothing. -/
structure Settled (raw : RawConfig) : Prop where
  owned : Owned raw
  failed : raw.info ≠ .ok → Freed raw
  destroy : ∃ raw', raw.destroy = some raw' ∧ Freed raw' ∧ raw'.info = .ok ∧ raw'.errorLine = 0 ∧
    raw'.count = 0 ∧ ∀ key, raw'.get key = some none

theorem freed_of_contents {raw : RawConfig} (hcells : Contents raw.entries [])
    (hbuffers : Contents raw.buffers []) : Freed raw where
  entries p := by
    have hnone := hcells.mem_ptrs_iff (a := p)
    simpa using hnone
  buffers p := by
    have hnone := hbuffers.mem_ptrs_iff (a := p)
    simpa using hnone

namespace Sim

variable {raw : RawConfig} {cfg : Config} {loose : List Buffer} {es : List Slot}

theorem same (h : Sim raw cfg loose es) : Same raw cfg := ⟨h.info, h.errorLine, h.count, h.get⟩

theorem freed (h : Sim raw cfg [] []) : Freed raw := freed_of_contents h.cells h.buffers

theorem destroy (h : Sim raw cfg [] es) :
    ∃ raw', raw.destroy = some raw' ∧ Freed raw' ∧ raw'.info = .ok ∧ raw'.errorLine = 0 ∧
      raw'.count = 0 ∧ ∀ key, raw'.get key = some none := by
  obtain ⟨entries', hall, -⟩ := freeAll_chain h.entries
  have hempty : Config.freeEntries cfg = some { cfg with
      head := none, tail := none, count := 0, entries := entries' } := by
    simp [Config.freeEntries, hall]
  obtain ⟨raw', hfree, h'⟩ := h.freeEntries hempty
  have h₂ : Sim { raw' with info := .ok, errorLine := 0 } { cfg with
      info := .ok, errorLine := 0, head := none, tail := none, count := 0, entries := entries' } [] [] :=
    { h' with info := rfl, errorLine := rfl }
  refine ⟨_, by simp [RawConfig.destroy, hfree], h₂.freed, rfl, rfl, h'.count, fun key => ?_⟩
  rw [h₂.get, Config.get, find_chain (l := []) rfl]
  rfl

theorem settled_empty (h : Sim raw cfg [] []) : Settled raw :=
  ⟨⟨[], h.chain, h.cells, h.buffers⟩, fun _ => h.freed, h.destroy⟩

/-- A parse that ends in error has no entry. -/
theorem settled {x : Except (Info × Nat) Store} (h : Sim raw cfg [] es) (hx : Outcome cfg x) :
    Settled raw := by
  refine ⟨⟨es, h.chain, h.cells, h.buffers⟩, fun hinfo => ?_, h.destroy⟩
  cases x with
  | ok s => exact absurd (h.info.trans hx.1) hinfo
  | error e =>
    obtain ⟨-, -, -, hr⟩ := hx
    obtain ⟨l, hl, hmap, -⟩ := hr.chain
    obtain rfl : l = [] := by simpa using hmap
    have hes : es.map Slot.entry = [] := Chain.unique h.entries hl
    obtain rfl : es = [] := List.map_eq_nil_iff.mp hes
    exact h.freed

end Sim

/-- The parse of a text, with the memory it uses. For every text and length and every pattern of failed
requests the two parsers return, and they answer alike. No block is freed twice or used after its free;
what is allocated at the end is the entries and their strings, nothing after an error, and nothing after
`cb_config_destroy`. -/
theorem parse_memory (ok : Nat → Bool) (text : Option (List UInt8)) (len : Nat) :
    ∃ raw cfg, parse ok .empty text len = some raw ∧ Config.parse ok text len = some cfg ∧
      Same raw cfg ∧ Settled raw := by
  cases text with
  | none =>
    by_cases hlen : 0 < len
    · have h : Sim { empty with info := .configParseError }
        { Config.empty with info := .configParseError } [] [] := { Sim.empty with info := rfl }
      exact ⟨_, _, if_pos hlen, if_pos hlen, h.same, h.settled_empty⟩
    · have hx : Outcome Config.empty (.ok []) := ⟨rfl, rfl, .empty⟩
      exact ⟨_, _, if_neg hlen, if_neg hlen, Sim.empty.same, Sim.empty.settled hx⟩
  | some bytes =>
    obtain ⟨ms, hms⟩ := meanings_exist (pieces (bytes.take len))
    obtain ⟨cfg, hparse, houtcome⟩ := @parseLoop_outcome ok (len + 1) .empty [] 0 _ _ hms .empty rfl
      rfl (Nat.lt_succ_of_le (List.length_take_le ..))
    obtain ⟨raw, es, hraw, h⟩ := Sim.empty.parseLoop hparse
    exact ⟨raw, cfg, hraw, hparse, h.same, h.settled houtcome⟩

/-- A file that can be read whole: it can be measured, is not too long, there is memory for it, and
`fread` delivers what was measured. -/
structure Readable (ok : Nat → Bool) (file : File) (size : Nat) : Prop where
  opens : file.opens = true
  seeksEnd : file.seeksEnd = true
  tell : file.tell = some size
  small : size ≤ fileMax
  seeksSet : file.seeksSet = true
  memory : ok 0 = true
  whole : size ≤ file.content.length

/-- What `cb_config_parse_file` makes of a file: a file that is read whole is parsed as its text is, with
one request for memory before the parse; any other gives one of three errors. -/
structure FileResult (ok : Nat → Bool) (file : File) (raw : RawConfig) : Prop where
  read : ∀ size, Readable ok file size → ∀ ms,
    List.Forall₂ Means (pieces (file.content.take size)) ms →
    ∃ cfg, Same raw cfg ∧ Outcome cfg (Config.read ok [] 0 1 ms)
  unread : (∀ size, ¬ Readable ok file size) →
    raw.info ∈ [.configFileOpenFailed, .configFileTooLarge, .configAllocFailed]

/-- A file that is given up before there is a buffer for it. -/
theorem giveUp_result {ok : Nat → Bool} {file : File} {raw : RawConfig} {cfg : Config} {info : Info}
    (h : Sim raw cfg [] []) (hinfo : info ∈ [.configFileOpenFailed, .configFileTooLarge, .configAllocFailed])
    (hunread : ∀ size, ¬ Readable ok file size) :
    ∃ raw', giveUp raw true info = some (raw', false) ∧ FileResult ok file raw' ∧ Settled raw' := by
  have h' : Sim { raw.fresh with info } { cfg with
      info, errorLine := 0, count := 0, head := none, tail := none } [] [] :=
    { h.fresh with info := rfl }
  exact ⟨_, rfl, ⟨fun size hread => absurd hread (hunread size), fun _ => hinfo⟩, h'.settled_empty⟩

/-- The parse of a text in a buffer, which is freed after it. -/
theorem Sim.parse_buffer {raw : RawConfig} {p : Ptr} {text : List UInt8} {n : Nat} (ok : Nat → Bool)
    (h : Sim raw { Config.empty with requests := n } [(p, text)] []) :
    ∃ raw₁ raw₂, parse ok raw (some text) text.length = some raw₁ ∧ raw₁.free p = some raw₂ ∧
      Settled raw₂ ∧ ∀ ms, List.Forall₂ Means (pieces text) ms →
        ∃ cfg, Same raw₂ cfg ∧ Outcome cfg (Config.read ok [] 0 n ms) := by
  have hread {ms : List Line} (hms : List.Forall₂ Means (pieces text) ms) :=
    @parseLoop_outcome ok (text.length + 1) { Config.empty with requests := n } [] 0 _ _ hms
      ⟨⟨[], rfl, rfl, rfl⟩, rfl, nofun⟩ rfl rfl (Nat.lt_succ_self _)
  obtain ⟨ms, hms⟩ := meanings_exist (pieces text)
  obtain ⟨cfg, hparse, houtcome⟩ := hread hms
  obtain ⟨raw₁, es, hraw, h₁⟩ := h.fresh.parseLoop hparse
  obtain ⟨raw₂, hfree, h₂⟩ := h₁.free
  refine ⟨raw₁, raw₂, ?_, hfree, h₂.settled houtcome, fun ms' hms' => ?_⟩
  · rw [parse, List.take_length]
    exact hraw
  · obtain ⟨cfg', hparse', houtcome'⟩ := hread hms'
    obtain rfl := Option.some.inj (hparse.symm.trans hparse')
    exact ⟨cfg, h₂.same, houtcome'⟩

/-- A file is closed once, whatever the C library answers and whatever requests for memory fail; its
buffer is freed, and the config is as after a parse of its text. -/
theorem parse_file_memory (ok : Nat → Bool) (file : File) :
    ∃ raw, parseFile ok .empty file = some (raw, false) ∧ FileResult ok file raw ∧ Settled raw := by
  unfold parseFile
  cases hopens : file.opens with
  | false =>
    have h : Sim { empty.fresh with info := .configFileOpenFailed }
      { Config.empty with info := .configFileOpenFailed } [] [] := { Sim.empty with info := rfl }
    refine ⟨_, rfl, ⟨fun size hread => ?_, fun _ => by simp⟩, h.settled_empty⟩
    exact absurd (hopens.symm.trans hread.opens) nofun
  | true =>
  cases hend : file.seeksEnd with
  | false =>
    exact giveUp_result Sim.empty (by simp) fun size hread =>
      absurd (hend.symm.trans hread.seeksEnd) nofun
  | true =>
  cases htell : file.tell with
  | none =>
    exact giveUp_result Sim.empty (by simp) fun size hread =>
      absurd (htell.symm.trans hread.tell) nofun
  | some size =>
  have hsize {n : Nat} (hread : Readable ok file n) : n = size :=
    Option.some.inj (hread.tell.symm.trans htell)
  by_cases hlarge : fileMax < size
  · simp only [Bool.not_true, Bool.false_eq_true, if_false, if_pos hlarge]
    exact giveUp_result Sim.empty (by simp) fun n hread =>
      Nat.not_lt.mpr hread.small (by rwa [hsize hread])
  cases hset : file.seeksSet with
  | false =>
    simp only [Bool.not_true, Bool.not_false, Bool.false_eq_true, if_false, if_neg hlarge, if_true]
    exact giveUp_result Sim.empty (by simp) fun n hread =>
      absurd (hset.symm.trans hread.seeksSet) nofun
  | true =>
  simp only [Bool.not_true, Bool.false_eq_true, if_false, if_neg hlarge]
  rcases Sim.empty.alloc ok (List.replicate (max size 1) 0) with
    ⟨hok, p, raw₁, hp, h₁⟩ | ⟨hok, raw₁, hp, h₁⟩
  · simp only [hp]
    obtain ⟨buffers, hmod, h₂⟩ := h₁.modify fun _ => file.content.take size
    simp only [hmod, Option.bind_eq_bind, Option.bind_some]
    by_cases hshort : (file.content.take size).length = size
    · have hbytes : { raw₁ with buffers }.bytes p = some (file.content.take size) :=
        h₂.bytes_of_mem (by simp)
      obtain ⟨raw₃, raw₄, hparse, hfree, hsettled, hread⟩ := h₂.parse_buffer ok
      rw [hshort] at hparse
      refine ⟨raw₄, by simp [close, hshort, hbytes, hparse, hfree], ⟨fun n hn ms hms => ?_, ?_⟩, hsettled⟩
      · rw [hsize hn] at hms
        exact hread ms hms
      · intro hunread
        rw [List.length_take] at hshort
        exact absurd ⟨hopens, hend, htell, Nat.not_lt.mp hlarge, hset, hok, by omega⟩ (hunread size)
    · obtain ⟨raw₃, hfree, h₃⟩ := h₂.free
      have h₄ : Sim { raw₃.fresh with info := .configFileOpenFailed } { Config.empty with
          info := .configFileOpenFailed, requests := 1 } [] [] := { h₃.fresh with info := rfl }
      simp only [close, if_true, Option.bind_some, ne_eq, hshort, not_false_eq_true, hfree,
        Option.pure_def]
      refine ⟨_, rfl, ⟨fun n hread => ?_, fun _ => by simp⟩, h₄.settled_empty⟩
      have hwhole := hread.whole
      have hn := hsize hread
      rw [List.length_take] at hshort
      omega
  · simp only [hp]
    exact giveUp_result h₁ (by simp) fun n hread => absurd (hok.symm.trans hread.memory) nofun

end RawConfig

end CBase.Config
