import Hotarubi.Proofs.CacheGeometry

/-! Which caches can serve at all. `_cache_init` sizes a slab for the bare object,
and what a buffer needs besides may not fit. -/

namespace Hotarubi.Memory.Cache
open Base Include

section Refused

variable {σ : Type} {limit : Nat} {c : Config} {supply : Supply σ} {s s' : State} {m m' : σ} {g : Ledger}
  {handed : List Nat} {backing slab left i : Nat}

private theorem fillSlab_refused (ran : fillSlab c supply backing slab left i s m = some (false, s', m')) :
    Lacks c supply backing left i m := by
  induction left generalizing s m i with
  | zero => cases ran
  | succ left ih =>
    rw [fillSlab] at ran
    obtain ⟨⟨answer, m1⟩, found, ran⟩ := Option.bind_eq_some_iff.mp ran
    cases answer with
    | none => exact .here found
    | some bufctl =>
      obtain ⟨s1, _, ran⟩ := Option.bind_eq_some_iff.mp ran
      exact .later found (ih ran)

private theorem slabAlloc_refused (regular : c.Regular) (served : 0 < c.buffers)
    (ran : slabAlloc limit c supply s m = some (none, s', m')) : Starved c supply m := by
  unfold slabAlloc at ran
  obtain ⟨⟨block, m1⟩, backed, ran⟩ := Option.bind_eq_some_iff.mp ran
  obtain ⟨m2, associated, ran⟩ := Option.bind_eq_some_iff.mp ran
  cases block with
  | none => exact .backing backed
  | some backing =>
    simp only [Option.bind_eq_bind, Option.bind_some] at ran
    obtain ⟨⟨own, m3⟩, described, ran⟩ := Option.bind_eq_some_iff.mp ran
    cases own with
    | none => exact .slab backed associated described
    | some own =>
      have size := bufferSize_pos served
      have bound : ¬ (c.buffers = 0 ∨ c.bufferSize > c.allocSize) := by
        have := buffer_lt regular served
        omega
      simp only [if_neg (Nat.ne_of_gt size), if_neg bound] at ran
      obtain ⟨⟨filled, s1, m4⟩, looped, ran⟩ := Option.bind_eq_some_iff.mp ran
      cases filled with
      | false => exact .bufctl backed associated described (fillSlab_refused looped)
      | true =>
        obtain ⟨links, _, ran⟩ := Option.bind_eq_some_iff.mp ran
        cases ran

/-- What the supply gives is not in use. -/
def Honest (c : Config) (supply : Supply σ) (s : State) (m : σ) : Prop :=
  ∀ backing slab bufctls m', Grows c supply m backing slab bufctls m' → Fresh c s backing slab bufctls

private theorem getObject_null (kept : Kept c s g handed) (regular : c.Regular) (served : 0 < c.buffers)
    (honest : Honest c supply s m) (enough : s.made.length + 1 < limit)
    (ran : getObject limit c supply s m = some (none, s', m')) : Starved c supply m := by
  by_cases supplied : Supplied c supply s m
  · obtain ⟨object, s1, m1, _, _, _, got, _⟩ := getObject_spec kept regular served supplied enough
    cases ran.symm.trans got
  · unfold Supplied at supplied
    push Not at supplied
    obtain ⟨noUsed, noFree, short⟩ := supplied
    unfold getObject at ran
    rw [if_neg (by simp [kept.unlocked])] at ran
    obtain ⟨⟨list, s1, m1⟩, chosen, _⟩ := Option.bind_eq_some_iff.mp ran
    unfold slabList at chosen
    simp only [noUsed, noFree, if_true] at chosen
    obtain ⟨⟨answer, s2, m2⟩, allocated, _⟩ := Option.bind_eq_some_iff.mp chosen
    cases answer with
    | none => exact slabAlloc_refused regular served allocated
    | some slab =>
      obtain ⟨_, backing, bufctls, _, _, grows, _⟩ := slabAlloc_returned allocated
      exact absurd (honest _ _ _ _ grows) (short backing slab bufctls m2 grows)

end Refused

/-- A slab has room for a buffer, and in every state that calls lead to a request is
answered with null only for lack of memory. -/
structure CanServe (c : Config) : Prop where
  room : 0 < c.buffers
  null : ∀ (σ : Type) (supply : Supply σ) (m : σ) (limit : Nat) (events : List Event) (w : World σ),
    (events.length + 2) * c.buffers < limit →
    EachStep (Event.exec limit c supply) (Event.Promised c supply) (.initial m) events →
    runCalls (Event.exec limit c supply) (.initial m) events = some w → Honest c supply w.state w.supply →
    ∀ s' m', getObject limit c supply w.state w.supply = some (none, s', m') → Starved c supply w.supply

/-- Small objects fit unless each is to start a page, where the descriptor of the slab
is in the way; the others fit unless the marker crosses the end of the last page. -/
def Fits (size align : Nat) (checkOverflow : Bool) : Prop :=
  (size < slabSize / 8 → align ≠ slabSize) ∧
    (slabSize / 8 ≤ size → checkOverflow = true → size % slabSize ≠ 0 ∧ size % slabSize ≠ slabSize - 1)

instance (size align : Nat) (checkOverflow : Bool) : Decidable (Fits size align checkOverflow) :=
  inferInstanceAs (Decidable (_ ∧ _))

section Sizes

variable {size align m : Nat} {checkOverflow : Bool} {c : Config}

private theorem alignUp_bounds (n : Nat) {a : Nat} (positive : 0 < a) :
    n ≤ (n + a - 1) / a * a ∧ (n + a - 1) / a * a < n + a := by
  have parts := Nat.div_add_mod (n + a - 1) a
  have rest := Nat.mod_lt (n + a - 1) positive
  rw [Nat.mul_comm] at parts
  omega

private theorem alignUp_le_iff {n a q : Nat} (positive : 0 < a) (whole : a ∣ q) : (n + a - 1) / a * a ≤ q ↔ n ≤ q := by
  obtain ⟨k, rfl⟩ := whole
  rw [Nat.mul_comm a k, Nat.mul_le_mul_right_iff positive, ← Nat.lt_succ_iff, Nat.div_lt_iff_lt_mul positive,
    Nat.succ_mul]
  omega

/-- The size of a buffer, should it not wrap. -/
def Config.alignedSize (c : Config) : Nat := (c.packedSize + c.objAlign - 1) / c.objAlign * c.objAlign

/-- The bytes of a slab that buffers may take. -/
def Config.available (c : Config) : Nat := if c.compact then c.allocSize - sizeofSlab else c.allocSize

private theorem buffers_pos_iff {c : Config} (positive : 0 < c.objAlign) (nonempty : 0 < c.packedSize)
    (bounded : c.available < 2 ^ 64) : 0 < c.buffers ↔ c.alignedSize ≤ c.available := by
  have low := (alignUp_bounds c.packedSize positive).1
  have buffers : c.buffers = c.available / if c.alignedSize < 2 ^ 64 then c.alignedSize else 0 := rfl
  have size : c.alignedSize = (c.packedSize + c.objAlign - 1) / c.objAlign * c.objAlign := rfl
  rw [buffers, Nat.div_pos_iff]
  split
  next => omega
  next => omega

private theorem align_half (divides : align ∣ slabSize) (other : align ≠ slabSize) : align ≤ 2048 := by
  obtain ⟨q, whole⟩ := divides
  have more : 2 ≤ q := by
    by_contra less
    have cases : q = 0 ∨ q = 1 := by omega
    rcases cases with rfl | rfl
    · cases whole
    · exact other (by rw [whole, Nat.mul_one])
  have twice := Nat.mul_le_mul_left align more
  rw [← whole] at twice
  simp only [slabSize] at twice
  omega

private theorem cacheInit_compact (size align : Nat) (checkOverflow : Bool) :
    (cacheInit size align checkOverflow).compact = decide (size < slabSize / 8) := by
  have small : size < allocSizeFor size / 8 ↔ size < slabSize / 8 := by
    simp only [allocSizeFor, slabSize]
    omega
  exact decide_eq_decide.mpr small

private theorem cacheInit_objAlign (size : Nat) (checkOverflow : Bool) (divides : align ∣ slabSize) :
    (cacheInit size align checkOverflow).objAlign = align :=
  if_neg (Nat.ne_of_gt (Nat.pos_of_dvd_of_pos divides (by decide)))

private theorem cacheInit_packedSize (size align : Nat) (checkOverflow : Bool) :
    (cacheInit size align checkOverflow).packedSize = size + (if checkOverflow then bufferMagicSize else 0) +
      if (cacheInit size align checkOverflow).compact then sizeofBufctlInline else 0 :=
  rfl

private theorem cacheInit_allocSize (size align : Nat) (checkOverflow : Bool) :
    (cacheInit size align checkOverflow).allocSize = allocSizeFor size :=
  rfl

private theorem room_small (divides : align ∣ slabSize) (small : size < slabSize / 8) :
    0 < (cacheInit size align checkOverflow).buffers ↔ align ≠ slabSize := by
  have positive := Nat.pos_of_dvd_of_pos divides (show 0 < slabSize by decide)
  have compact := (cacheInit_compact size align checkOverflow).trans (decide_eq_true small)
  have step := cacheInit_objAlign size checkOverflow divides
  have packed := cacheInit_packedSize size align checkOverflow
  have alloc := cacheInit_allocSize size align checkOverflow
  generalize cacheInit size align checkOverflow = c at *
  have marker : (if checkOverflow then bufferMagicSize else 0) ≤ 2 := by
    cases checkOverflow with
    | false => decide
    | true => decide
  have available : c.available = 4056 := by
    have page : c.allocSize = slabSize := by
      rw [alloc]
      simp only [allocSizeFor, slabSize] at small ⊢
      omega
    rw [Config.available, if_pos compact, page]
    rfl
  have bounds := alignUp_bounds c.packedSize (step ▸ positive)
  simp only [compact, if_true, sizeofBufctlInline] at packed
  simp only [slabSize] at small
  rw [buffers_pos_iff (step ▸ positive) (by omega) (by omega), available, Config.alignedSize]
  constructor
  · intro room same
    have pages : slabSize ∣ (c.packedSize + c.objAlign - 1) / c.objAlign * c.objAlign := by
      rw [step, same]
      exact Nat.dvd_mul_left _ _
    have atLeast := Nat.le_of_dvd (by omega) pages
    simp only [slabSize] at atLeast
    omega
  · intro other
    have half := align_half divides other
    omega

private theorem room_large (divides : align ∣ slabSize) (large : slabSize / 8 ≤ size) (created : size + slabSize ≤ 2 ^ 64) :
    0 < (cacheInit size align checkOverflow).buffers ↔
      (checkOverflow = true → size % slabSize ≠ 0 ∧ size % slabSize ≠ slabSize - 1) := by
  have positive := Nat.pos_of_dvd_of_pos divides (show 0 < slabSize by decide)
  have external := (cacheInit_compact size align checkOverflow).trans (decide_eq_false (Nat.not_lt.mpr large))
  have step := cacheInit_objAlign size checkOverflow divides
  have packed := cacheInit_packedSize size align checkOverflow
  have alloc := cacheInit_allocSize size align checkOverflow
  have whole : slabSize ∣ (cacheInit size align checkOverflow).allocSize := Nat.dvd_mul_right _ _
  generalize cacheInit size align checkOverflow = c at *
  have available : c.available = allocSizeFor size := by
    rw [Config.available, external, ← alloc]
    rfl
  have bounded : allocSizeFor size < 2 ^ 64 := by
    simp only [allocSizeFor, slabSize] at created ⊢
    omega
  simp only [external, Bool.false_eq_true, if_false] at packed
  simp only [slabSize] at large
  rw [buffers_pos_iff (step ▸ positive) (by omega) (by omega), available, Config.alignedSize,
    alignUp_le_iff (step ▸ positive) (by rw [step, ← alloc]; exact Nat.dvd_trans divides whole), packed]
  simp only [allocSizeFor, slabSize]
  cases checkOverflow with
  | true =>
    simp only [if_true, bufferMagicSize, forall_const]
    omega
  | false =>
    simp only [Bool.false_eq_true, if_false, false_imp_iff, iff_true]
    omega

/-- A slab has room for a buffer exactly if the marker and, in a small slab, the
alignment leave it some. -/
private theorem room_iff (divides : align ∣ slabSize) (created : size + slabSize ≤ 2 ^ 64) :
    0 < (cacheInit size align checkOverflow).buffers ↔ Fits size align checkOverflow := by
  unfold Fits
  rcases Nat.lt_or_ge size (slabSize / 8) with small | large
  · rw [room_small divides small]
    exact ⟨fun other => ⟨fun _ => other, fun large => absurd small (Nat.not_lt.mpr large)⟩, fun fits => fits.1 small⟩
  · rw [room_large divides large created]
    exact ⟨fun marked => ⟨fun small => absurd small (Nat.not_lt.mpr large), fun _ => marked⟩, fun fits => fits.2 large⟩

/-- A cache can serve exactly if its sizes fit. -/
theorem canServe_iff (divides : align ∣ slabSize) (checkOverflow : Bool) (created : size + slabSize ≤ 2 ^ 64) :
    CanServe (cacheInit size align checkOverflow) ↔ Fits size align checkOverflow := by
  rw [← room_iff divides created]
  refine ⟨fun serves => serves.room, fun served => ⟨served, ?_⟩⟩
  intro σ supply m limit events w enough permitted reached honest s' m' ran
  have regular := cacheInit_regular size align checkOverflow
  have room := Nat.le_mul_of_pos_right (events.length + 2) served
  obtain ⟨other, reached', ⟨g, kept⟩, few⟩ := run_served regular served
    (Nat.lt_of_le_of_lt (Nat.mul_le_mul_right _ (by omega)) enough) permitted
  cases reached.symm.trans reached'
  exact getObject_null kept regular served honest (by omega) ran

theorem canServe_iff_witness : CanServe (cacheInit 24 8 true) :=
  (canServe_iff (by decide) true (by decide)).mpr (by decide)

private theorem bump_serves (none : c.buffers = 0) (external : c.compact = false) : ¬ Starved c bump m := by
  rintro (⟨refused⟩ | ⟨_, _, refused⟩ | ⟨_, _, _, lacks⟩)
  · cases refused
  · rw [slabFor, if_neg (by simp [external])] at refused
    cases refused
  · rw [none] at lacks
    cases lacks

/-- Objects of one page with a marker: memory is there, and the answer is null. -/
theorem page_objects_refused : ¬ ∀ (size align : Nat) (checkOverflow : Bool), 1 ≤ size → align ∣ slabSize →
    size + slabSize ≤ 2 ^ 64 → CanServe (cacheInit size align checkOverflow) := by
  intro claim
  have serves := claim 4096 1 true (by decide) (by decide) (by decide)
  have none : (cacheInit 4096 1 true).buffers = 0 := by decide +kernel
  have answered : (getObject 1 (cacheInit 4096 1 true) bump .initial 4096).map (·.1) = some Option.none := by
    decide +kernel
  obtain ⟨⟨answer, s', m'⟩, ran, null⟩ := Option.map_eq_some_iff.mp answered
  obtain rfl : answer = Option.none := null
  have honest : Honest (cacheInit 4096 1 true) bump State.initial 4096 := by
    rintro backing slab bufctls m' ⟨_, _, _, backed, associated, own, gets⟩
    cases backed
    cases associated
    cases own
    rw [none] at gets
    cases gets
    refine ⟨by decide, ?_⟩
    rintro block _ used (⟨slab, member, _⟩ | ⟨_, xs, bufctl, ring, inside, _⟩)
    · cases member
    · rw [ring.unique initial_rings.2] at inside
      cases inside
  exact bump_serves none (by decide)
    (serves.null Nat bump 4096 1 [] (.initial 4096) (by rw [none]; decide) trivial rfl honest s' m' ran)

end Sizes

end Hotarubi.Memory.Cache
