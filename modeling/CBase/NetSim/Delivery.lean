import CBase.Lib.Run
import CBase.NetSim.Calls

/-!
# The simulator as a set of mailboxes

Every call is one event of `Mailbox`: a send posts the copies that it creates, a step delivers what is
due at its clock reading, and a receive takes the head of the ready FIFO. `Laid` says that a simulator
is laid out as a view whose mail is well formed. It holds after every run (`Run.laid`), and the
histories of the mailboxes are those of the calls (`Run.mail`).
-/

namespace CBase.NetSim

open LinkedHeap

/-! ## Events -/

/-- The copies with these rolls, when `brk` datagrams were allocated before. -/
def copiesOf (brk : Nat) (src dest : Addr) (buf : List UInt8) (rolls : List Rolls) : List Copy :=
  rolls.mapIdx fun i r => (brk + i, r.node src dest buf)

/-- The copies that a send with these rolls creates. -/
def sentCopies (brk : Nat) (ep : Option Handle) (dest : Addr) (buf : List UInt8) (rolls : List Rolls) :
    List Copy :=
  match ep with
  | none => []
  | some e => copiesOf brk e.addr dest buf rolls

/-- What a call is to the mailboxes. -/
def Sim.event (env : Env) (s : Sim) : Call × Reply → Mailbox.Event Copy Addr Nat
  | (.bind addr, .handle h) => if h.info = .ok then .opened addr else .idle
  | (.close (some ep), _) => if ep.attached then .closed ep.addr else .idle
  | (.send ep dest buf, .sent _ rolls) => .posted (sentCopies s.brk ep dest buf rolls)
  | (.step, _) => .delivered (env.clock s.readings).toNat
  | (.recv (some ep) _ _ _ _, .received r) =>
    if r.info = .ok then
      match (s.box ep.addr).bind (·.ready.head?) with
      | none => .idle
      | some c => .took ep.addr c
    else .idle
  | (.flush, _) => .cleared
  | _ => .idle

namespace View

variable {v : View} {addr a : Addr} {b : Box} {c : Copy}

/-- A change of every endpoint that keeps the addresses. -/
theorem find_map {f : Box → Box} (hf : ∀ b, (f b).addr = b.addr) (boxes : List Box) (a : Addr) :
    (boxes.map f).find? (·.addr = a) = (boxes.find? (·.addr = a)).map f := by
  rw [List.find?_map]
  exact congrArg (fun p => (boxes.find? p).map f) (funext fun b => by simp [hf])

theorem box_addr (hb : v.box a = some b) : b.addr = a := by
  unfold box at hb
  simpa using List.find?_some hb

theorem box_bind (p : Ptr) :
    (v.bind p addr).box a = if addr = a then some ⟨p, addr, [], 0⟩ else v.box a := by
  unfold bind box
  by_cases ha : addr = a
  · simp [ha]
  · simp [ha]

theorem box_close : (v.close addr).box a = if a = addr then none else v.box a := by
  have hfind : (v.close addr).box a = v.boxes.find? fun b => b.addr ≠ addr ∧ b.addr = a := by
    simp [close, box, List.find?_filter]
  rw [hfind]
  by_cases ha : a = addr
  · subst ha
    rw [if_pos rfl, List.find?_eq_none.mpr (by simp)]
  · rw [if_neg ha, box]
    refine congrArg (fun p => v.boxes.find? p) (funext fun b => ?_)
    rw [Bool.eq_iff_iff]
    simp only [ne_eq, decide_eq_true_eq, and_iff_right_iff_imp]
    rintro rfl
    exact ha

theorem box_update {f : Box → Box} (hf : ∀ b, (f b).addr = b.addr) (pending : List Copy) :
    (View.mk pending (update addr f v.boxes)).box a =
      (v.box a).map fun b => if a = addr then f b else b := by
  have hfind := @find_map (fun b => if b.addr = addr then f b else b)
    (fun b => by
      split
      · exact hf b
      · rfl) v.boxes a
  refine hfind.trans (Option.map_congr fun b hb => ?_)
  rw [box_addr (v := v) hb]

theorem pop_addr (clamp : UInt64) (b : Box) : (pop clamp b).addr = b.addr := by
  unfold pop
  split <;> rfl

theorem box_post : (v.post c).box a =
    (v.box a).map fun b => if a = dest c then charge c.2.len b else b :=
  box_update (f := charge c.2.len) (fun _ => rfl) _

theorem box_deliver (now : UInt64) : (v.deliver now).box a =
    (v.box a).map (arrive (v.pending.takeWhile (due · ≤ now.toNat))) :=
  find_map (f := arrive (v.pending.takeWhile (due · ≤ now.toNat))) (fun _ => rfl) _ _

theorem box_take (clamp : UInt64) : (v.take clamp addr).box a =
    (v.box a).map fun b => if a = addr then pop clamp b else b :=
  box_update (pop_addr clamp) _

theorem box_clear : v.clear.box a = (v.box a).map drained := find_map drained_addr _ _

theorem mail_bind (p : Ptr) : (v.bind p addr).mail =
    { v.mail with boxes := Function.update v.mail.boxes addr (some []) } := by
  refine congrArg (Mailbox.Mail.mk _) (funext fun a => ?_)
  rw [box_bind]
  by_cases ha : a = addr
  · subst ha
    simp
  · rw [if_neg (Ne.symm ha), Function.update_of_ne ha]
    rfl

theorem mail_close : (v.close addr).mail =
    ⟨v.mail.waiting.filter (dest · ≠ addr), Function.update v.mail.boxes addr none⟩ := by
  refine congrArg (Mailbox.Mail.mk _) (funext fun a => ?_)
  rw [box_close]
  by_cases ha : a = addr
  · subst ha
    simp
  · rw [if_neg ha, Function.update_of_ne ha]
    rfl

theorem mail_post : (v.post c).mail = { v.mail with waiting := Mailbox.insert due c v.mail.waiting } := by
  refine congrArg (Mailbox.Mail.mk _) (funext fun a => ?_)
  rw [box_post, Option.map_map]
  refine congrArg (fun f => (v.box a).map f) (funext fun b => ?_)
  rw [Function.comp_apply]
  split <;> rfl

theorem mail_posts (cs : List Copy) : (cs.foldl post v).mail =
    { v.mail with waiting := Mailbox.insertAll due cs v.mail.waiting } := by
  induction cs generalizing v with
  | nil => rfl
  | cons c cs ih =>
    rw [List.foldl_cons, ih, mail_post]
    rfl

theorem mail_deliver (now : UInt64) : (v.deliver now).mail =
    ⟨v.mail.waiting.dropWhile (due · ≤ now.toNat), fun a => (v.mail.boxes a).map
      (· ++ Mailbox.bound dest a (v.mail.waiting.takeWhile (due · ≤ now.toNat)))⟩ := by
  refine congrArg (Mailbox.Mail.mk _) (funext fun a => ?_)
  rw [box_deliver, Option.map_map, mail, Option.map_map]
  refine Option.map_congr fun b hb => ?_
  rw [Function.comp_apply, Function.comp_apply, arrive, box_addr hb]

theorem mail_take (clamp : UInt64) {rest : List Copy} (hb : v.box addr = some b)
    (hready : b.ready = c :: rest) :
    v.mail.boxes addr = some (c :: rest) ∧ (v.take clamp addr).mail =
      { v.mail with boxes := Function.update v.mail.boxes addr (some rest) } := by
  have hpop : (pop clamp b).ready = rest := by
    unfold pop
    rw [hready]
  refine ⟨by simp [mail, hb, hready], congrArg (Mailbox.Mail.mk _) (funext fun a => ?_)⟩
  rw [box_take, Option.map_map]
  by_cases ha : a = addr
  · subst ha
    simp [hb, hpop]
  · rw [Function.update_of_ne ha]
    refine Option.map_congr fun x _ => ?_
    rw [Function.comp_apply, if_neg ha]

theorem mail_clear : v.clear.mail = ⟨[], fun a => (v.mail.boxes a).map fun _ => []⟩ := by
  refine congrArg (Mailbox.Mail.mk _) (funext fun a => ?_)
  rw [box_clear, Option.map_map, mail, Option.map_map]
  rfl

end View

/-! ## Sends -/

section Sent

variable {env : Env} {src dest : Addr} {buf : List UInt8} {now : UInt64} {s s' : Sim}

theorem mem_copiesOf {brk : Nat} {rolls : List Rolls} {c : Copy}
    (hc : c ∈ copiesOf brk src dest buf rolls) :
    brk ≤ c.1 ∧ c.1 < brk + rolls.length ∧ ∃ r ∈ rolls, c.2 = r.node src dest buf := by
  obtain ⟨i, hi, rfl⟩ := List.mem_mapIdx.mp hc
  exact ⟨Nat.le_add_right _ _, Nat.add_lt_add_left hi _, rolls[i], List.getElem_mem hi, rfl⟩

theorem pairwise_copiesOf (brk : Nat) (rolls : List Rolls) :
    (copiesOf brk src dest buf rolls).Pairwise (·.1 < ·.1) := by
  unfold copiesOf
  rw [List.pairwise_iff_getElem]
  intro i j hi hj hij
  rw [List.getElem_mapIdx, List.getElem_mapIdx]
  exact Nat.add_lt_add_left hij _

/-- What a send does besides its draws and its counts. -/
structure SentFrame (src dest : Addr) (buf : List UInt8) (now : UInt64) (s : Sim) (rolls : List Rolls)
    (s' : Sim) : Prop where
  params : s'.params = s.params
  readings : s'.readings = s.readings
  view : s'.toView = (copiesOf s.brk src dest buf rolls).foldl View.post s.toView
  brk : s.brk + rolls.length ≤ s'.brk
  few : rolls.length ≤ 2
  rolled : ∀ r ∈ rolls, ∃ rng rng', rollCopy rng s.params buf.length now = some (r, rng')

theorem Sent.frame {out : Info × List Rolls} (h : Sent env src dest buf now s out s') :
    SentFrame src dest buf now s out.2 s' := by
  cases h with
  | failed hnone =>
    cases hnone with
    | failed hn hmem hbrk => exact ⟨rfl, rfl, rfl, hbrk, Nat.zero_le _, nofun⟩
  | single hfirst hdup =>
    cases hfirst with
    | copy hroll hmem =>
      refine ⟨rfl, rfl, rfl, Nat.le_refl _, Nat.le_succ _, fun r hr => ?_⟩
      rw [List.mem_singleton.mp hr]
      exact ⟨_, _, hroll⟩
  | half hfirst hdup hnone =>
    cases hfirst with
    | copy hroll hmem =>
      cases hnone with
      | failed hn hmem hbrk =>
        refine ⟨rfl, rfl, rfl, hbrk, Nat.le_succ _, fun r hr => ?_⟩
        rw [List.mem_singleton.mp hr]
        exact ⟨_, _, hroll⟩
  | double hfirst hdup hsecond =>
    cases hfirst with
    | copy hroll hmem =>
      cases hsecond with
      | copy hroll' hmem' =>
        refine ⟨rfl, rfl, rfl, Nat.le_refl _, Nat.le_refl _, fun r hr => ?_⟩
        rcases List.mem_pair.mp hr with rfl | rfl
        · exact ⟨_, _, hroll⟩
        · exact ⟨_, _, hroll'⟩

end Sent

/-! ## One call is one event -/

/-- Every effect of a call is a step of the mailboxes. -/
theorem Effect.mail {env : Env} {s s' : Sim} {act : Call × Reply} (h : Effect env s act s') :
    Mailbox.Step due dest s.mail (s.event env act) s'.mail := by
  cases h with
  | idle hquiet =>
    have hposted : Mailbox.Step due dest s.mail (.posted []) s.mail := .posted nofun
    cases hquiet with
    | duplicate => exact .idle
    | @kept ep hkept =>
      cases ep with
      | none => exact .idle
      | some e => simpa [Sim.event, hkept e rfl] using Mailbox.Step.idle
    | @refused ep => cases ep <;> exact hposted
    | @unreceived ep _ _ _ _ r hr =>
      cases ep with
      | none => exact .idle
      | some e => simpa [Sim.event, hr] using Mailbox.Step.idle
    | rejected => exact .idle
  | unbindable => exact .idle
  | @bound addr p hb =>
    have hnone : s.mail.boxes addr = none := by simp [View.mail, hb]
    rw [View.mail_bind]
    exact .opened hnone
  | @closed ep hat =>
    have hevent : s.event env (.close (some ep), .closed (some { ep with attached := false })) =
        .closed ep.addr := by simp [Sim.event, hat]
    rw [hevent, View.mail_close]
    exact .closed
  | unbound hadmitted =>
    obtain ⟨rfl, -⟩ := hadmitted
    exact .posted nofun
  | full hadmitted =>
    obtain ⟨rfl, -⟩ := hadmitted
    exact .posted nofun
  | dropped hadmitted =>
    obtain ⟨rfl, -⟩ := hadmitted
    exact .posted nofun
  | @sent ep e dest' buf b rng out s' hadmitted hb hroom hdrop hsent =>
    obtain ⟨rfl, -⟩ := hadmitted
    rw [hsent.frame.view, View.mail_posts]
    refine .posted fun m hm => ?_
    obtain ⟨-, -, r, -, hnode⟩ := mem_copiesOf hm
    have hdest : dest m = dest' := by rw [dest, hnode, Rolls.node]
    simp [View.mail, hdest, hb]
  | stepped =>
    rw [View.mail_deliver]
    exact .delivered
  | @received ep _ _ _ b c rest hat hb hready hcap =>
    obtain ⟨hbox, hmail⟩ := View.mail_take 0 hb hready
    rw [hmail]
    have htook : Mailbox.Step due dest s.mail (.took ep.addr c) _ := .took hbox
    simpa [Sim.event, hb, hready] using htook
  | configured => exact .idle
  | flushed =>
    rw [View.mail_clear]
    exact .cleared

/-- A send puts its copies on their way. -/
theorem Effect.sent_view {env : Env} {s s' : Sim} {ep : Option Handle} {dest : Addr} {buf : List UInt8}
    {info : Info} {rolls : List Rolls}
    (h : Effect env s (.send ep dest buf, .sent info rolls) s') :
    s'.toView = (sentCopies s.brk ep dest buf rolls).foldl View.post s.toView := by
  cases h with
  | idle hquiet =>
    cases hquiet
    cases ep <;> rfl
  | unbound hadmitted =>
    obtain ⟨rfl, -⟩ := hadmitted
    rfl
  | full hadmitted =>
    obtain ⟨rfl, -⟩ := hadmitted
    rfl
  | dropped hadmitted =>
    obtain ⟨rfl, -⟩ := hadmitted
    rfl
  | sent hadmitted hb hroom hdrop hsent =>
    obtain ⟨rfl, -⟩ := hadmitted
    exact hsent.frame.view

/-! ## What can be observed -/

/-- The datagrams in the memory that a call allocated. -/
def created (net net' : Net) : List Copy :=
  (List.range' net.nodes.brk (net'.nodes.brk - net.nodes.brk)).filterMap fun p =>
    (net'.nodes.cell p).map fun c => (p, c.val)

/-- The datagrams of `net->pending`. -/
def pendingList (net : Net) : List Copy := toList net.nodes net.pending

/-- The datagrams of the ready FIFO of the endpoint at an address, if there is one. -/
def readyList (net : Net) (addr : Addr) : Option (List Copy) := do
  let e ← (findEndpoint net addr).join
  let c ← net.cells.cell e
  return toList net.nodes c.val.readyHead

/-- What a call is to the mailboxes. -/
def observe (env : Env) (t : Taken Net (Call × Reply)) : Mailbox.Event Copy Addr Nat :=
  match t.label with
  | (.bind addr, .handle h) => if h.info = .ok then .opened addr else .idle
  | (.close (some ep), _) => if ep.attached then .closed ep.addr else .idle
  | (.send _ _ _, .sent _ _) => .posted (created t.pre t.post)
  | (.step, _) => .delivered (env.clock t.pre.readings).toNat
  | (.recv (some ep) _ _ _ _, .received r) =>
    if r.info = .ok then
      match (readyList t.pre ep.addr).bind List.head? with
      | none => .idle
      | some c => .took ep.addr c
    else .idle
  | (.flush, _) => .cleared
  | _ => .idle

def View.copies (v : View) : List Copy := (v.pending :: v.boxes.map Box.ready).flatten

theorem View.copies_post (v : View) (c : Copy) : (v.post c).copies.Perm (c :: v.copies) := by
  have hready : (View.update (dest c) (View.charge c.2.len) v.boxes).map Box.ready =
      v.boxes.map Box.ready := View.map_update fun _ => rfl
  unfold View.copies View.post
  simp only [hready, List.flatten_cons]
  exact (Mailbox.insert_perm c v.pending).append_right _

theorem View.copies_posts (v : View) (cs : List Copy) :
    (cs.foldl View.post v).copies.Perm (cs ++ v.copies) := by
  induction cs generalizing v with
  | nil => exact .refl _
  | cons c cs ih =>
    refine (ih (v.post c)).trans ?_
    refine ((v.copies_post c).append_left cs).trans ?_
    exact List.perm_middle

/-- The simulator is laid out as a view whose mail is well formed. -/
structure Laid (net : Net) (v : View) : Prop where
  repr : Repr net [] v
  wf : Mailbox.Wf due dest v.mail

namespace Laid

variable {env : Env} {net net' : Net} {v v' : View} {act : Call × Reply}

theorem create (seed : UInt64) (params : Params) : Laid (create seed params) .empty :=
  ⟨.create seed params, ⟨.nil, nofun⟩⟩

theorem open' (h : Laid net v) : v.Open := fun c hc => by
  have hbox := h.wf.open' c hc
  rw [View.mail, Option.isSome_map, View.box_isSome] at hbox
  exact hbox

theorem pendingList_eq (h : Laid net v) : pendingList net = v.pending := by
  unfold pendingList
  rw [h.repr.pending]
  exact toList_chain (Filed.list (k := []) h.repr.nodes)

theorem readyList_eq (h : Laid net v) (addr : Addr) : readyList net addr = v.mail.boxes addr := by
  unfold readyList View.mail
  rw [h.repr.find]
  cases hb : v.box addr with
  | none => simp [hb]
  | some b =>
    obtain ⟨k, m, hsplit, -⟩ := View.box_split h.repr.addrs hb
    obtain ⟨r, hcell⟩ := h.repr.cell (b := b) (by simp [hsplit])
    have hlist : toList net.nodes b.cell.2.readyHead = b.ready :=
      toList_chain (h.repr.nodes.chain b.ready (by simp [hsplit]))
    simp [hb, hcell, hlist]

/-- The addresses that were handed out. -/
theorem lt_brk (h : Laid net v) {c : Copy} (hc : c ∈ v.copies) : c.1 < net.nodes.brk := by
  obtain ⟨l, hl, hcl⟩ := List.mem_flatten.mp hc
  exact (h.repr.nodes.chain l hl).lt_brk (mem_ptrs.mpr ⟨c.2, hcl⟩)

theorem created_eq (h : Laid net v) (h' : Laid net' v') {cs : List Copy}
    (hcopies : v'.copies.Perm (cs ++ v.copies)) (hcs : cs.Pairwise (·.1 < ·.1))
    (hrange : ∀ c ∈ cs, net.nodes.brk ≤ c.1) : created net net' = cs := by
  have hsorted : (created net net').Pairwise (·.1 < ·.1) := by
    refine List.Pairwise.filterMap _ (fun p q hpq b hb c hc => ?_) (List.pairwise_lt_range' 1)
    obtain ⟨_, -, rfl⟩ := Option.map_eq_some_iff.mp hb
    obtain ⟨_, -, rfl⟩ := Option.map_eq_some_iff.mp hc
    exact hpq
  have hnodup {l : List Copy} (hl : l.Pairwise (·.1 < ·.1)) : l.Nodup :=
    hl.imp fun hlt heq => absurd hlt (by rw [heq]; exact Nat.lt_irrefl _)
  have hmem (c : Copy) : c ∈ created net net' ↔ c ∈ cs := by
    obtain ⟨p, n⟩ := c
    have hcell : (∃ r, net'.nodes.cell p = some ⟨r, n⟩) ↔ (p, n) ∈ v'.copies :=
      h'.repr.nodes.contents.cell p n
    unfold created
    rw [List.mem_filterMap]
    constructor
    · rintro ⟨q, hq, hc⟩
      obtain ⟨⟨r, m⟩, hr, heq⟩ := Option.map_eq_some_iff.mp hc
      cases heq
      rcases List.mem_append.mp (hcopies.mem_iff.mp (hcell.mp ⟨r, hr⟩)) with hnew | hold
      · exact hnew
      · have hlt : p < net.nodes.brk := h.lt_brk hold
        exact absurd hlt (Nat.not_lt.mpr (List.mem_range'_1.mp hq).1)
    · intro hnew
      have hin : (p, n) ∈ v'.copies := hcopies.mem_iff.mpr (List.mem_append_left _ hnew)
      obtain ⟨r, hr⟩ := hcell.mpr hin
      have hlow : net.nodes.brk ≤ p := hrange _ hnew
      have hhigh : p < net'.nodes.brk := h'.lt_brk hin
      refine ⟨p, List.mem_range'_1.mpr ⟨hlow, ?_⟩, by rw [hr]; rfl⟩
      rwa [Nat.add_sub_cancel' (hlow.trans hhigh.le)]
  refine List.Perm.eq_of_pairwise (fun a b _ _ hab hba => absurd hab (Nat.lt_asymm hba)) hsorted hcs ?_
  exact (List.perm_ext_iff_of_nodup (hnodup hsorted) (hnodup hcs)).mpr hmem

/-- Every call has a result. -/
theorem total (h : Laid net v) (env : Env) (call : Call) : (exec env net call).isSome := by
  obtain ⟨reply, net', v', hexec, -⟩ := h.repr.exec_spec h.open' env call
  rw [hexec]
  rfl

theorem exec (h : Laid net v) (hexec : Exec env net act net') :
    ∃ v', Laid net' v' ∧ Effect env (net.sim v) act (net'.sim v') := by
  obtain ⟨reply, net₁, v', hresult, hrepr, heffect⟩ := h.repr.exec_spec h.open' env act.1
  obtain ⟨rfl, rfl⟩ : act.2 = reply ∧ net' = net₁ := by
    have hsame := Option.some.inj (hexec.symm.trans hresult)
    exact Prod.mk.injEq .. ▸ hsame
  exact ⟨v', ⟨hrepr, heffect.mail.wf h.wf⟩, heffect⟩

/-- The copies that a send creates are those of its rolls. -/
theorem created_send (h : Laid net v) (h' : Laid net' v') {ep : Option Handle} {dest : Addr}
    {buf : List UInt8} {info : Info} {rolls : List Rolls}
    (heffect : Effect env (net.sim v) (.send ep dest buf, .sent info rolls) (net'.sim v')) :
    created net net' = sentCopies net.nodes.brk ep dest buf rolls := by
  have hview : v' = (sentCopies net.nodes.brk ep dest buf rolls).foldl View.post v := heffect.sent_view
  refine h.created_eq h' ?_ ?_ fun c hc => ?_
  · rw [hview]
    exact View.copies_posts v _
  · cases ep with
    | none => exact .nil
    | some e => exact pairwise_copiesOf _ _
  · cases ep with
    | none => cases hc
    | some e => exact (mem_copiesOf hc).1

theorem observe_eq (h : Laid net v) (h' : Laid net' v')
    (heffect : Effect env (net.sim v) act (net'.sim v')) :
    observe env ⟨net, act, net'⟩ = (net.sim v).event env act := by
  have hready (addr : Addr) : (readyList net addr).bind List.head? =
      (v.box addr).bind (·.ready.head?) := by
    rw [h.readyList_eq, View.mail, Option.bind_map]
    rfl
  obtain ⟨call, reply⟩ := act
  cases call with
  | send ep dest buf =>
    cases reply with
    | sent info rolls => exact congrArg Mailbox.Event.posted (h.created_send h' heffect)
    | _ => rfl
  | recv ep outSrc outBuf outCap outLen =>
    cases ep with
    | none => rfl
    | some ep =>
      cases reply with
      | received r =>
        unfold observe Sim.event
        simp only [hready]
        rfl
      | _ => rfl
  | close ep => cases ep <;> rfl
  | bind addr => cases reply <;> rfl
  | _ => rfl

end Laid

/-! ## Runs -/

abbrev Calls := List (Taken Net (Call × Reply))

def events (env : Env) (h : Calls) : List (Mailbox.Event Copy Addr Nat) := h.map (observe env)

/-- The copies that the sends created, in the order of creation. -/
def enqueued (env : Env) (h : Calls) : List Copy := (events env h).flatMap Mailbox.Event.posts

def script (env : Env) (net : Net) : List Call → Option (Calls × Net)
  | [] => some ([], net)
  | call :: calls => do
    let (reply, net') ← exec env net call
    let (h, last) ← script env net' calls
    return (⟨net, (call, reply), net'⟩ :: h, last)

/-- No impairments. -/
def calm : Params := ⟨0, 0, 0, 0, 0, 0, 0, 0, 0⟩

/-- A clock that shows `now`, and memory for every request. -/
def still (now : UInt64) : Env := ⟨fun _ => now, fun _ => true⟩

section Runs

variable {env : Env} {seed : UInt64} {params : Params} {net : Net} {h : Calls}

theorem script_run {calls : List Call} {last : Net} (hscript : script env net calls = some (h, last)) :
    Run (Exec env) net h last := by
  induction calls generalizing net h with
  | nil =>
    cases hscript
    exact .nil
  | cons call calls ih =>
    unfold script at hscript
    simp only [Option.bind_eq_bind, Option.pure_def, Option.bind_eq_some_iff, Option.some.injEq,
      Prod.mk.injEq] at hscript
    obtain ⟨⟨reply, net'⟩, hexec, ⟨h', last'⟩, hrest, rfl, rfl⟩ := hscript
    exact (Run.single (i := (call, reply)) hexec).append (ih hrest)

/-- A run whose states can be computed, with a property that can be decided. -/
theorem script_reaches {P : Calls → Net → Prop} [∀ h net, Decidable (P h net)] {calls : List Call}
    (hcheck : (script env net calls).map (fun x => decide (P x.1 x.2)) = some true) :
    ∃ h last, Run (Exec env) net h last ∧ P h last := by
  obtain ⟨⟨h, last⟩, hscript, hdecide⟩ := Option.map_eq_some_iff.mp hcheck
  exact ⟨h, last, script_run hscript, of_decide_eq_true hdecide⟩

theorem events_snoc (env : Env) (h : Calls) (t : Taken Net (Call × Reply)) :
    events env (h ++ [t]) = events env h ++ [observe env t] := List.map_append

theorem enqueued_snoc (env : Env) (h : Calls) (t : Taken Net (Call × Reply)) :
    enqueued env (h ++ [t]) = enqueued env h ++ (observe env t).posts := by
  unfold enqueued
  rw [events_snoc, List.flatMap_append]
  simp

/-- The simulator stays laid out, and its calls are a run of the mailboxes. -/
theorem Run.mail (hrun : Run (Exec env) (create seed params) h net) :
    ∃ v m, Laid net v ∧ Run (Mailbox.Step due dest) Mailbox.Mail.empty m v.mail ∧
      m.map (·.label) = events env h := by
  refine hrun.invariant_hist (fun h net => ∃ v m, Laid net v ∧
    Run (Mailbox.Step due dest) Mailbox.Mail.empty m v.mail ∧ m.map (·.label) = events env h)
    ⟨.empty, [], .create seed params, .nil, rfl⟩ ?_
  rintro h net act net' - ⟨v, m, hlaid, hm, hlabels⟩ hexec
  obtain ⟨v', hlaid', heffect⟩ := hlaid.exec hexec
  have hstep := heffect.mail
  rw [← hlaid.observe_eq hlaid' heffect] at hstep
  refine ⟨v', _, hlaid', .snoc hm hstep, ?_⟩
  rw [List.map_append, hlabels, events_snoc]
  rfl

theorem Run.laid (hrun : Run (Exec env) (create seed params) h net) : ∃ v, Laid net v := by
  obtain ⟨v, -, hlaid, -⟩ := Run.mail hrun
  exact ⟨v, hlaid⟩

/-- Only a send posts. -/
theorem Sim.posts_eq_nil {s : Sim} {act : Call × Reply}
    (hcall : act.1.isSend = false) : (s.event env act).posts = [] := by
  obtain ⟨call, reply⟩ := act
  cases call with
  | send => cases hcall
  | bind addr =>
    cases reply with
    | handle ep =>
      rw [Sim.event]
      split <;> rfl
    | _ => rfl
  | close ep =>
    cases ep with
    | none => rfl
    | some e =>
      rw [Sim.event]
      split <;> rfl
  | recv ep =>
    cases ep with
    | none => rfl
    | some e =>
      cases reply with
      | received r =>
        rw [Sim.event]
        split
        · split <;> rfl
        · rfl
      | _ => rfl
  | _ => rfl

/-- What is posted is a copy of a send. -/
theorem Sim.mem_posts {s : Sim} {act : Call × Reply} {c : Copy} (hc : c ∈ (s.event env act).posts) :
    ∃ e dest buf info rolls, act = (.send (some e) dest buf, .sent info rolls) ∧
      c ∈ copiesOf s.brk e.addr dest buf rolls := by
  cases hsend : act.1.isSend with
  | false =>
    rw [Sim.posts_eq_nil hsend] at hc
    cases hc
  | true =>
    obtain ⟨call, reply⟩ := act
    cases call with
    | send ep dest buf =>
      cases reply with
      | sent info rolls =>
        cases ep with
        | none => cases hc
        | some e => exact ⟨e, dest, buf, info, rolls, rfl, hc⟩
      | _ => cases hc
    | _ => cases hsend

/-- Addresses of datagrams are handed out in order. -/
theorem Effect.brk {s s' : Sim} {act : Call × Reply} (heffect : Effect env s act s') :
    s.brk ≤ s'.brk ∧ (s.event env act).posts.Pairwise (·.1 < ·.1) ∧
      ∀ c ∈ (s.event env act).posts, s.brk ≤ c.1 ∧ c.1 < s'.brk := by
  have hquiet (hcall : act.1.isSend = false) (hbrk : s'.brk = s.brk) :
      s.brk ≤ s'.brk ∧ (s.event env act).posts.Pairwise (·.1 < ·.1) ∧
        ∀ c ∈ (s.event env act).posts, s.brk ≤ c.1 ∧ c.1 < s'.brk := by
    rw [Sim.posts_eq_nil hcall, hbrk]
    exact ⟨Nat.le_refl _, .nil, nofun⟩
  cases heffect with
  | idle hidle =>
    cases hidle with
    | @refused ep => cases ep <;> exact ⟨Nat.le_refl _, .nil, nofun⟩
    | _ => exact hquiet rfl rfl
  | unbound hadmitted =>
    obtain ⟨rfl, -⟩ := hadmitted
    exact ⟨Nat.le_refl _, .nil, nofun⟩
  | full hadmitted =>
    obtain ⟨rfl, -⟩ := hadmitted
    exact ⟨Nat.le_refl _, .nil, nofun⟩
  | dropped hadmitted =>
    obtain ⟨rfl, -⟩ := hadmitted
    exact ⟨Nat.le_refl _, .nil, nofun⟩
  | sent hadmitted hb hroom hdrop hsent =>
    obtain ⟨rfl, -⟩ := hadmitted
    have hbrk := hsent.frame.brk
    refine ⟨(Nat.le_add_right _ _).trans hbrk, pairwise_copiesOf _ _, fun c hc => ?_⟩
    obtain ⟨hlow, hhigh, -⟩ := mem_copiesOf hc
    exact ⟨hlow, hhigh.trans_le hbrk⟩
  | _ => exact hquiet rfl rfl

theorem Run.numbered (hrun : Run (Exec env) (create seed params) h net) :
    (enqueued env h).Pairwise (·.1 < ·.1) ∧ ∀ c ∈ enqueued env h, c.1 < net.nodes.brk := by
  refine hrun.invariant_hist (fun h net => (enqueued env h).Pairwise (·.1 < ·.1) ∧
    ∀ c ∈ enqueued env h, c.1 < net.nodes.brk) ⟨.nil, nofun⟩ ?_
  rintro h net act net' hr ⟨hnum, hlt⟩ hexec
  obtain ⟨v, hlaid⟩ := Run.laid hr
  obtain ⟨v', hlaid', heffect⟩ := hlaid.exec hexec
  obtain ⟨hle, hposts, hrange⟩ := heffect.brk
  rw [← hlaid.observe_eq hlaid' heffect] at hposts hrange
  rw [enqueued_snoc, List.pairwise_append]
  refine ⟨⟨hnum, hposts, fun x hx c hc => (hlt x hx).trans_le (hrange c hc).1⟩, fun c hc => ?_⟩
  rcases List.mem_append.mp hc with hc | hc
  · exact (hlt c hc).trans_le hle
  · exact (hrange c hc).2

end Runs

end CBase.NetSim
