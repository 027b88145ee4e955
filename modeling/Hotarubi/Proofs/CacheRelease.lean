import Hotarubi.Proofs.CacheFailure

/-! Giving slabs back. The descriptors of a slab leave the object map and go back
to their cache, but nothing takes the slab off its list. -/

namespace Hotarubi.Memory.Cache
open Base Ring Chain Include

/-- What a supply gives. -/
inductive Asset where
  | backing (block : Block)
  | slab (slab : Nat)
  | bufctl (bufctl : Nat)
  deriving DecidableEq

/-- Whatever is given back is taken. -/
structure Accepts {σ : Type} (supply : Supply σ) : Prop where
  slabFree : ∀ backing n m, ∃ m', supply.slabFree backing n m = some m'
  putSlab : ∀ slab m, ∃ m', supply.putSlab slab m = some m'
  putBufctl : ∀ bufctl m, ∃ m', supply.putBufctl bufctl m = some m'

/-- What the supply has given is taken back, and leaves the account of it. -/
structure Takes {σ : Type} (supply : Supply σ) (account : σ → List Asset → Prop) : Prop where
  slabFree : ∀ {backing n m rest}, account m (.backing ⟨backing, n⟩ :: rest) →
    ∃ m', supply.slabFree backing n m = some m' ∧ account m' rest
  putSlab : ∀ {slab m rest}, account m (.slab slab :: rest) → ∃ m', supply.putSlab slab m = some m' ∧ account m' rest
  putBufctl : ∀ {bufctl m rest}, account m (.bufctl bufctl :: rest) →
    ∃ m', supply.putBufctl bufctl m = some m' ∧ account m' rest

/-- What goes back with a slab: its free descriptors, its own and its block. -/
def Config.shares (c : Config) (backing slab : Nat) (avail : List Nat) : List Asset :=
  (if c.compact then [] else avail.map .bufctl ++ [.slab slab]) ++ [.backing ⟨backing, c.allocSize⟩]

section Release

variable {σ : Type} {limit : Nat} {c : Config} {supply : Supply σ} {s : State} {m : σ} {slab : Nat}
  {lists : Link → List Nat} {mapped avail : List Nat} {g : Ledger} {handed : List Nat}
  {account : σ → List Asset → Prop} {others : List Asset}

theorem Accepts.takes (accepts : Accepts supply) : Takes supply fun _ _ => True := by
  refine ⟨fun {backing n m _} _ => ?_, fun {slab m _} _ => ?_, fun {bufctl m _} _ => ?_⟩
  · obtain ⟨m', taken⟩ := accepts.slabFree backing n m
    exact ⟨m', taken, trivial⟩
  · obtain ⟨m', taken⟩ := accepts.putSlab slab m
    exact ⟨m', taken, trivial⟩
  · obtain ⟨m', taken⟩ := accepts.putBufctl bufctl m
    exact ⟨m', taken, trivial⟩

private theorem Shelved.unmap {l : Links Link} {xs ys : List Nat} {bufctl : Nat}
    (shelved : Shelved l lists (xs ++ bufctl :: ys)) :
    ∃ l', listDel l (.bufctls bufctl) = some l' ∧ Shelved l' lists (xs ++ ys) := by
  have ring := shelved.map
  simp only [List.map_append, List.map_cons] at ring
  obtain ⟨l', removed, ring', _, _, kept⟩ := listDel_at ring
  refine ⟨l', removed, fun list member => (shelved.ring list member).congr fun x onRing => kept x ?_, by simpa using ring',
    shelved.apart⟩
  simpa using shelf_apart_objMap member onRing (xs ++ bufctl :: ys)

/-- The loop of `_slab_release` with the free descriptors `rest` still to come. -/
structure Returning (s : State) (lists : Link → List Nat) (mapped avail : List Nat) (slab : Nat)
    (account : σ → List Asset → Prop) (others : List Asset) (rest : List Nat) (state : State × σ) : Prop where
  chain : IsChain state.1.word (bufctlsHead slab) rest
  listed : ∀ b ∈ rest, b ∈ avail
  map : ∃ mapped', Shelved state.1.links lists mapped' ∧ (∀ b ∈ rest, b ∈ mapped') ∧
    ∀ b ∈ mapped, b ∉ avail → b ∈ mapped'
  words : ∀ x ∉ bufctlsHead slab :: avail, state.1.word x = s.word x
  backing : state.1.backing = s.backing
  held : account state.2 (rest.map .bufctl ++ others)

theorem Returning.cursor {x : Nat} {rest : List Nat} {state : State × σ}
    (returning : Returning s lists mapped avail slab account others (x :: rest) state) :
    x ≠ bufctlsHead slab ∧ state.1.word x = some (rest.headD (bufctlsHead slab)) := by
  refine ⟨fun same => (List.nodup_cons.mp returning.chain.nodup).1 (same ▸ List.mem_cons_self), ?_⟩
  have later := returning.chain.leads.2
  cases rest with
  | nil => exact later
  | cons y rest => exact later.1

/-- One pass gives one descriptor back. -/
theorem Returning.step (takes : Takes supply account) {x : Nat} {rest : List Nat} {state : State × σ}
    (returning : Returning s lists mapped avail slab account others (x :: rest) state) :
    ∃ state', (do
      let word ← slistDel state.1.word (bufctlsHead slab) x limit
      let links ← listDel state.1.links (.bufctls x)
      let m ← supply.putBufctl x state.2
      some ({ state.1 with
        word, links, stats := { state.1.stats with buffers := state.1.stats.buffers - 1 } }, m)) = some state' ∧
      Returning s lists mapped avail slab account others rest state' := by
  obtain ⟨s1, m1⟩ := state
  obtain ⟨chain, listed, ⟨mapped1, shelved, inside, others⟩, words, backing, held⟩ := returning
  have fresh := List.nodup_cons.mp (List.nodup_cons.mp chain.nodup).2
  obtain ⟨xs, ys, rfl⟩ := List.append_of_mem (inside x List.mem_cons_self)
  obtain ⟨l', removed, shelved'⟩ := shelved.unmap
  obtain ⟨m2, taken, held'⟩ := takes.putBufctl held
  have stays : ∀ b, b ≠ x → b ∈ xs ++ x :: ys → b ∈ xs ++ ys := by
    intro b other member
    simpa [other] using member
  simp only [slistDel_first chain, removed, taken, Option.bind_eq_bind, Option.bind_some]
  refine ⟨_, rfl, chain.pop, fun b member => listed b (List.mem_cons_of_mem _ member), ⟨xs ++ ys, shelved',
    fun b member => ?_, fun b member outside => ?_⟩, fun y outside => ?_, backing, held'⟩
  · exact stays b (fun same => fresh.1 (same ▸ member)) (inside b (List.mem_cons_of_mem _ member))
  · exact stays b (fun same => outside (same ▸ listed x List.mem_cons_self)) (others b member outside)
  · obtain ⟨notHead, notFree⟩ := not_or.mp (List.mem_cons.not.mp outside)
    have other : y ≠ x := fun same => notFree (same ▸ listed x List.mem_cons_self)
    simp only [Function.update_of_ne other, Function.update_of_ne notHead]
    exact words y outside

/-- What giving a slab back leaves as it was. -/
structure Without (s s' : State) (lists : Link → List Nat) (mapped avail : List Nat) (slab : Nat) (mapped' : List Nat) :
    Prop where
  shelved : Shelved s'.links lists mapped'
  others : ∀ b ∈ mapped, b ∉ avail → b ∈ mapped'
  words : ∀ x ∉ bufctlsHead slab :: avail, s'.word x = s.word x
  backing : s'.backing = s.backing

/-- The loop gives back every free descriptor of the slab, and takes no other one
out of the object map. -/
private theorem returnBufctls_spec (takes : Takes supply account) (chain : IsChain s.word (bufctlsHead slab) avail)
    (shelved : Shelved s.links lists mapped) (inside : ∀ b ∈ avail, b ∈ mapped) (enough : avail.length < limit)
    (held : account m (avail.map .bufctl ++ others)) :
    ∃ s' m' mapped', returnBufctls limit supply slab s m = some (s', m') ∧ Without s s' lists mapped avail slab mapped' ∧
      account m' others := by
  have start : Returning s lists mapped avail slab account others avail (s, m) :=
    ⟨chain, fun _ member => member, ⟨mapped, shelved, inside, fun _ member _ => member⟩, fun _ _ => rfl, rfl, held⟩
  obtain ⟨⟨s', m'⟩, ran, _, _, ⟨mapped', shelved', _, others'⟩, words, backing, held'⟩ :=
    visitMutable_induction (fun _ _ _ => Returning.cursor) (fun _ _ _ => Returning.step takes) start chain.first enough
  exact ⟨s', m', mapped', ran, ⟨shelved', others', words, backing⟩, held'⟩

private theorem slabRelease_spec (takes : Takes supply account) (shelved : Shelved s.links lists mapped)
    (chain : IsChain s.word (bufctlsHead slab) avail) (inside : c.compact = false → ∀ b ∈ avail, b ∈ mapped)
    (enough : avail.length < limit) (real : s.backing slab = 0 → account m others)
    (held : account m (c.shares (s.backing slab) slab avail ++ others)) :
    ∃ given s' m' mapped', slabRelease limit c supply slab s m = some (given, s', m') ∧
      Without s s' lists mapped avail slab mapped' ∧ account m' others := by
  unfold slabRelease
  by_cases nothing : s.backing slab = 0
  · exact ⟨false, s, m, mapped, by simp only [nothing, if_true],
      ⟨shelved, fun _ member _ => member, fun _ _ => rfl, rfl⟩, real nothing⟩
  · simp only [nothing, if_false, releaseParts, Option.bind_eq_bind]
    unfold Config.shares at held
    cases compact : c.compact with
    | true =>
      rw [if_pos compact] at held
      obtain ⟨m', freed, held'⟩ := takes.slabFree held
      simp only [if_true, Option.bind_some, freed]
      exact ⟨true, _, m', mapped, rfl, ⟨shelved, fun _ member _ => member, fun _ _ => rfl, rfl⟩, held'⟩
    | false =>
      rw [if_neg (by rw [compact]; exact Bool.false_ne_true), List.append_assoc, List.append_assoc] at held
      obtain ⟨s1, m1, mapped1, ran, ⟨shelved1, others1, words, backing⟩, held1⟩ :=
        returnBufctls_spec takes chain shelved (inside compact) enough held
      obtain ⟨m2, taken, held2⟩ := takes.putSlab held1
      obtain ⟨m3, freed, held3⟩ := takes.slabFree held2
      simp only [Bool.false_eq_true, if_false, ran, Option.bind_some, taken, freed]
      exact ⟨true, _, m3, mapped1, rfl, ⟨shelved1, others1, words, backing⟩, held3⟩

theorem Holds.listed (holds : Holds c s g handed) {list : Link} (member : list ∈ shelves) {slab : Nat}
    (inside : slab ∈ g.lists list) : slab ∈ s.made := (holds.made slab).mpr ⟨list, member, inside⟩

private theorem Holds.free_apart (holds : Holds c s g handed) {one two : Nat} (made : one ∈ s.made) (made' : two ∈ s.made)
    (different : one ≠ two) {y : Nat} (own : y ∈ bufctlsHead two :: g.avail two) : y ∉ bufctlsHead one :: g.avail one :=
  fun foreign => different (holds.words one made two made' y
    (List.cons_subset_cons _ (holds.balanced one made).inside foreign)
    (List.cons_subset_cons _ (holds.balanced two made').inside own))

/-- What all the slabs given bring back. -/
def State.shares (s : State) (c : Config) (g : Ledger) (slabs : List Nat) : List Asset :=
  slabs.flatMap fun slab => c.shares (s.backing slab) slab (g.avail slab)

/-- A loop that gives the slabs of a list back, with `todo` still to come there and
`later` on other lists. -/
structure Releasing (c : Config) (s : State) (g : Ledger) (account : σ → List Asset → Prop) (others : List Asset)
    (list : Link) (later todo : List Nat) (state : State × σ) : Prop where
  place : ∃ done, g.lists list = done ++ todo
  made : ∀ slab ∈ todo ++ later, slab ∈ s.made
  distinct : (todo ++ later).Nodup
  backing : state.1.backing = s.backing
  map : ∃ mapped, Shelved state.1.links g.lists mapped ∧
    ∀ slab ∈ todo ++ later, IsChain state.1.word (bufctlsHead slab) (g.avail slab) ∧
      (c.compact = false → ∀ b ∈ g.avail slab, b ∈ mapped)
  held : account state.2 (s.shares c g (todo ++ later) ++ others)

/-- One pass gives one slab back and leaves those still to come as they are. -/
theorem Releasing.step (takes : Takes supply account) (holds : Holds c s g handed) (enough : c.buffers < limit)
    (real : ∀ slab ∈ s.made, s.backing slab = 0 → ∀ m rest, account m rest) {list : Link} {later todo : List Nat}
    {s1 : State} {m1 : σ} (releasing : Releasing c s g account others list later (slab :: todo) (s1, m1)) :
    ∃ given state', slabRelease limit c supply slab s1 m1 = some (given, state') ∧
      Releasing c s g account others list later todo state' := by
  obtain ⟨⟨done, here⟩, made, distinct, backing, ⟨mapped, shelved, intact⟩, held⟩ := releasing
  obtain ⟨outside, distinct'⟩ := List.nodup_cons.mp distinct
  have own := made slab List.mem_cons_self
  obtain ⟨chain, inside⟩ := intact slab List.mem_cons_self
  have few : (g.avail slab).length < limit := by
    have count := (holds.balanced slab own).count
    omega
  simp only at backing
  rw [State.shares, List.cons_append, List.flatMap_cons, List.append_assoc, ← congrFun backing slab] at held
  obtain ⟨given, s2, m2, mapped2, ran, ⟨shelved2, others2, words, backing2⟩, held2⟩ :=
    slabRelease_spec takes shelved chain inside few
      (fun null => real slab own (congrFun backing slab ▸ null) m1 _) held
  refine ⟨given, (s2, m2), ran, ⟨done ++ [slab], by simp [here]⟩, fun other later => made other
    (List.mem_cons_of_mem _ later),
    distinct', backing2.trans backing, ⟨mapped2, shelved2, fun other later => ?_⟩, held2⟩
  have different : slab ≠ other := fun same => outside (same ▸ later)
  obtain ⟨chain', inside'⟩ := intact other (List.mem_cons_of_mem _ later)
  have apart : ∀ y ∈ bufctlsHead other :: g.avail other, y ∉ bufctlsHead slab :: g.avail slab := fun y mine =>
    holds.free_apart own (made other (List.mem_cons_of_mem _ later)) different mine
  refine ⟨chain'.congr fun y mine => words y (apart y mine), fun external b free => others2 b (inside' external b free) ?_⟩
  exact fun foreign => apart b (List.mem_cons_of_mem _ free) (List.mem_cons_of_mem _ foreign)

private theorem Holds.releasing (holds : Holds c s g handed) {list : Link} {later : List Nat}
    (made : ∀ slab ∈ g.lists list ++ later, slab ∈ s.made) (distinct : (g.lists list ++ later).Nodup)
    (held : account m (s.shares c g (g.lists list ++ later) ++ others)) (locked : Bool) :
    Releasing c s g account others list later (g.lists list) ({ s with locked }, m) := by
  refine ⟨⟨[], rfl⟩, made, distinct, rfl, ⟨g.mapped, holds.shelved, fun slab inside => ?_⟩, held⟩
  have balanced := holds.balanced slab (made slab inside)
  exact ⟨balanced.chain, fun external b free =>
    (holds.mapped b).mpr ⟨external, slab, made slab inside, balanced.inside b free⟩⟩

/-- The loop with the nodes `rest` still to come. -/
def Reaping (c : Config) (s : State) (g : Ledger) (account : σ → List Asset → Prop) (others : List Asset)
    (list : Link) (later : List Nat) (rest : List Link) (state : State × σ) : Prop :=
  ∃ todo, rest = nodes todo ∧ Releasing c s g account others list later todo state

theorem Reaping.step (takes : Takes supply account) (holds : Holds c s g handed) (enough : c.buffers < limit)
    (real : ∀ slab ∈ s.made, s.backing slab = 0 → ∀ m rest, account m rest) {list : Link} {later : List Nat} {x : Link}
    {rest : List Link} {s1 : State} {m1 : σ} (reaping : Reaping c s g account others list later (x :: rest) (s1, m1)) :
    ∃ slab given state', slabEntry x = some slab ∧ slabRelease limit c supply slab s1 m1 = some (given, state') ∧
      Reaping c s g account others list later rest state' := by
  obtain ⟨todo, split, releasing⟩ := reaping
  obtain ⟨slab, todo, rfl, rfl, rfl⟩ := List.map_eq_cons_iff.mp split.symm
  obtain ⟨given, state', ran, releasing'⟩ := releasing.step takes holds enough real
  exact ⟨slab, given, state', rfl, ran, todo, rfl, releasing'⟩

theorem Reaping.cursor {list : Link} {later : List Nat} {x : Link} {rest : List Link} {state : State × σ}
    (reaping : Reaping c s g account others list later (x :: rest) state) (member : list ∈ shelves) :
    x ≠ list ∧ state.1.links.next x = some (rest.headD list) := by
  obtain ⟨todo, split, releasing⟩ := reaping
  obtain ⟨mapped, shelved, _⟩ := releasing.map
  obtain ⟨done, here⟩ := releasing.place
  exact shelved.cursor member here split

/-- `reap` succeeds if there is a free slab, and the free list is as long as before. -/
theorem reap_spec (accepts : Accepts supply) (kept : Kept c s g handed) (occupied : g.lists .free ≠ [])
    (short : (g.lists .free).length < limit) (enough : c.buffers < limit) (m : σ) :
    ∃ gone s' m' mapped, reap limit c supply s m = some (true, gone, s', m') ∧ Shelved s'.links g.lists mapped := by
  have holds := kept.holds
  have member : Link.free ∈ shelves := by simp
  have start : Reaping c s g (fun _ _ => True) [] .free [] (nodes (g.lists .free)) ({ s with locked := true }, m) :=
    ⟨_, rfl, holds.releasing (fun slab inside => holds.listed member (by simpa using inside))
      (by simpa using holds.shelved.nodup member) trivial true⟩
  have step : ∀ x rest (state : State × σ × List Nat),
      Reaping c s g (fun _ _ => True) [] .free [] (x :: rest) (state.1, state.2.1) →
      ∃ state', (do
        let slab ← slabEntry x
        let after ← slabRelease limit c supply slab state.1 state.2.1
        some (after.2.1, after.2.2, if after.1 then slab :: state.2.2 else state.2.2)) = some state' ∧
        Reaping c s g (fun _ _ => True) [] .free [] rest (state'.1, state'.2.1) := by
    intro x rest state reaping
    obtain ⟨slab, given, state', entry, ran, reaping'⟩ :=
      reaping.step accepts.takes holds enough (fun _ _ _ _ _ => trivial)
    simp only [entry, Option.bind_eq_bind, Option.bind_some, ran]
    exact ⟨_, rfl, reaping'⟩
  have cursor : ∀ x rest (state : State × σ × List Nat),
      Reaping c s g (fun _ _ => True) [] .free [] (x :: rest) (state.1, state.2.1) →
      x ≠ .free ∧ state.1.links.next x = some (rest.headD .free) := fun _ _ _ reaping => reaping.cursor member
  obtain ⟨⟨s', m', gone⟩, ran, todo, _, releasing⟩ := @visitMutable_induction _ (State × σ × List Nat) _ _ _ _ _
    (fun rest state => Reaping c s g (fun _ _ => True) [] .free [] rest (state.1, state.2.1)) cursor step limit
    ({ s with locked := true }, m, []) start (path_next (holds.shelved.ring .free member).path)
    (by simpa [nodes] using short)
  obtain ⟨mapped, shelved, _⟩ := releasing.map
  refine ⟨gone, { s' with locked := false }, m', mapped, ?_, shelved⟩
  rw [reap, if_neg (by simp [kept.unlocked]), if_neg (mt (listEmpty_shelf holds.shelved member).mp occupied)]
  exact congrArg (Option.bind · _) ran

/-- One loop of `release`, with the slabs of the lists after it still to come. -/
theorem Releasing.list (takes : Takes supply account) (holds : Holds c s g handed) (enough : c.buffers < limit)
    (real : ∀ slab ∈ s.made, s.backing slab = 0 → ∀ m rest, account m rest) {list : Link} (member : list ∈ shelves)
    {later : List Nat} (short : (g.lists list).length < limit) {s1 : State} {m1 : σ}
    (releasing : Releasing c s g account others list later (g.lists list) (s1, m1)) :
    ∃ state', releaseList limit c supply list s1 m1 = some state' ∧
      Releasing c s g account others list later [] state' := by
  have step : ∀ x rest (state : State × σ), Reaping c s g account others list later (x :: rest) state →
      ∃ state', (do
        let slab ← slabEntry x
        let after ← slabRelease limit c supply slab state.1 state.2
        some after.2) = some state' ∧ Reaping c s g account others list later rest state' := by
    intro x rest state reaping
    obtain ⟨slab, given, state', entry, ran, reaping'⟩ := reaping.step takes holds enough real
    simp only [entry, Option.bind_eq_bind, Option.bind_some, ran]
    exact ⟨_, rfl, reaping'⟩
  have start : Reaping c s g account others list later (nodes (g.lists list)) (s1, m1) := ⟨_, rfl, releasing⟩
  obtain ⟨mapped, shelved, _⟩ := releasing.map
  have first := path_next (shelved.ring list member).path
  have cursor : ∀ x rest (state : State × σ), Reaping c s g account others list later (x :: rest) state →
      x ≠ list ∧ state.1.links.next x = some (rest.headD list) := fun _ _ _ reaping => reaping.cursor member
  obtain ⟨state', ran, todo, split, releasing'⟩ := visitMutable_induction cursor step start first
    (by simpa [nodes] using short)
  obtain rfl := List.map_eq_nil_iff.mp split.symm
  exact ⟨state', ran, releasing'⟩

theorem Releasing.next {list target : Link} {later : List Nat} {state : State × σ}
    (releasing : Releasing c s g account others list (g.lists target ++ later) [] state) :
    Releasing c s g account others target later (g.lists target) state :=
  ⟨⟨[], rfl⟩, releasing.made, releasing.distinct, releasing.backing, releasing.map, releasing.held⟩

/-- The slabs in the order in which a forced `release` gives them back. -/
def Ledger.all (g : Ledger) : List Nat := g.lists .full ++ (g.lists .used ++ g.lists .free)

theorem Holds.mem_all (holds : Holds c s g handed) : slab ∈ g.all ↔ slab ∈ s.made := by
  rw [holds.made]
  simp [Ledger.all, or_comm, or_left_comm]

theorem Holds.all_nodup (holds : Holds c s g handed) : g.all.Nodup := by
  have apart := holds.shelved.apart
  refine List.nodup_append.mpr ⟨holds.shelved.nodup (by simp), List.nodup_append.mpr ⟨holds.shelved.nodup (by simp),
    holds.shelved.nodup (by simp), ?_⟩, ?_⟩
  · rintro slab used _ free rfl
    exact absurd (apart .used (by simp) .free (by simp) slab used free) (by simp)
  · rintro slab full _ rest rfl
    rcases List.mem_append.mp rest with used | free
    · exact absurd (apart .full (by simp) .used (by simp) slab full used) (by simp)
    · exact absurd (apart .full (by simp) .free (by simp) slab full free) (by simp)

/-- A `release` that is forced, or finds no slab in use, gives back every slab with
its free descriptors. -/
theorem release_spec (takes : Takes supply account) (kept : Kept c s g handed) (enough : c.buffers < limit)
    (short : g.all.length < limit) (real : ∀ slab ∈ s.made, s.backing slab = 0 → ∀ m rest, account m rest) {force : Bool}
    (allowed : force = true ∨ g.lists .full = [] ∧ g.lists .used = [])
    (held : account m (s.shares c g g.all ++ others)) :
    ∃ s' m', release limit c supply force s m = some (true, s', m') ∧ account m' others := by
  have holds := kept.holds
  have made : ∀ slab ∈ g.all, slab ∈ s.made := fun slab => holds.mem_all.mp
  have distinct := holds.all_nodup
  simp only [Ledger.all, List.length_append] at short
  have refused : ¬ ((!listEmpty s.links .full || !listEmpty s.links .used) && !force) = true := by
    rcases allowed with rfl | ⟨full, used⟩
    · simp
    · rw [(listEmpty_shelf holds.shelved (by simp)).mpr full, (listEmpty_shelf holds.shelved (by simp)).mpr used]
      simp
  have last {list : Link} {state : State × σ}
      (releasing : Releasing c s g account others list (g.lists .free ++ []) [] state) :
      ∃ s' m', (releaseList limit c supply .free state.1 state.2).bind (fun state =>
        some (true, { state.1 with locked := false }, state.2)) = some (true, s', m') ∧ account m' others := by
    obtain ⟨⟨s', m'⟩, ran, releasing'⟩ := releasing.next.list takes holds enough real (by simp) (by omega)
    exact ⟨{ s' with locked := false }, m', by rw [ran]; rfl, releasing'.held⟩
  rw [release, if_neg (by simp [kept.unlocked]), if_neg refused]
  cases force with
  | true =>
    have start : Releasing c s g account others .full (g.lists .used ++ g.lists .free) (g.lists .full)
        ({ s with locked := true }, m) := holds.releasing made distinct held true
    obtain ⟨⟨s1, m1⟩, ran1, releasing1⟩ := start.list takes holds enough real (by simp) (by omega)
    obtain ⟨⟨s2, m2⟩, ran2, releasing2⟩ := releasing1.next.list takes holds enough real (by simp) (by omega)
    rw [← List.append_nil (g.lists .free)] at releasing2
    obtain ⟨s', m', ran3, held'⟩ := last releasing2
    refine ⟨s', m', ?_, held'⟩
    simp only [if_true, ran1, Option.bind_eq_bind, Option.bind_some, ran2]
    exact ran3
  | false =>
    obtain ⟨full, used⟩ := allowed.resolve_left Bool.false_ne_true
    have all : g.all = g.lists .free ++ [] := by simp [Ledger.all, full, used]
    rw [all] at made distinct held
    have start : Releasing c s g account others .free [] (g.lists .free) ({ s with locked := true }, m) :=
      holds.releasing made distinct held true
    obtain ⟨⟨s', m'⟩, ran, releasing⟩ := start.list takes holds enough real (by simp) (by omega)
    refine ⟨{ s' with locked := false }, m', ?_, releasing.held⟩
    simp only [Bool.false_eq_true, if_false, Option.bind_eq_bind, Option.bind_some, ran]

end Release

end Hotarubi.Memory.Cache
