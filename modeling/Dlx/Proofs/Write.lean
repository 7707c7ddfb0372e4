import Dlx.Bytes

/-!
# Writes into byte strings

A write replaces some bytes at a place by as many, which it computes from those that were there.
Assembling and linking are long sequences of writes whose places are disjoint, so their order does
not matter and each finds the bytes that stood there at the start.

Results:
* `writeAll_perm`: writes to disjoint places give the same bytes in every order
  (`writeAll_flatMap_perm` for groups of writes).
* `slice?_writeAll`: after all of them, each place holds what its write makes of the first bytes.
* `writeAll_middle`: writes into a part of a byte string are writes into the whole.
-/
namespace Dlx

/-! ## Slices and splices -/

theorem slice?_eq_some_iff {bs out : Bytes} {off len : Nat} :
    slice? bs off len = some out ↔ off + len ≤ bs.length ∧ (bs.drop off).take len = out := by
  unfold slice?
  split
  · next h => simp [h]
  · next h => simp [h]

theorem length_of_slice? {bs out : Bytes} {off len : Nat} (h : slice? bs off len = some out) :
    out.length = len := by
  obtain ⟨hl, rfl⟩ := slice?_eq_some_iff.mp h
  simp; omega

theorem getElem?_slice {bs : Bytes} {off len j : Nat} :
    ((bs.drop off).take len)[j]? = if j < len then bs[off + j]? else none := by
  rw [List.getElem?_take]
  simp [List.getElem?_drop]

theorem getElem?_splice {bs patch : Bytes} {off j : Nat} (h : off + patch.length ≤ bs.length) :
    (splice bs off patch)[j]? =
      if off ≤ j ∧ j < off + patch.length then patch[j - off]? else bs[j]? := by
  have ht : (bs.take off).length = off := by simp; omega
  simp only [splice, List.append_assoc]
  rcases Nat.lt_or_ge j off with h1 | h1
  · rw [List.getElem?_append_left (by omega), List.getElem?_take_of_lt h1, if_neg (by omega)]
  · rw [List.getElem?_append_right (by omega), ht]
    rcases Nat.lt_or_ge (j - off) patch.length with h2 | h2
    · rw [List.getElem?_append_left h2, if_pos (by omega)]
    · rw [List.getElem?_append_right h2, if_neg (by omega), List.getElem?_drop]
      congr 1; omega

theorem slice?_splice_self {bs patch : Bytes} {off : Nat} (h : off + patch.length ≤ bs.length) :
    slice? (splice bs off patch) off patch.length = some patch := by
  rw [slice?_eq_some_iff, length_splice h]
  refine ⟨h, List.ext_getElem? fun j => ?_⟩
  rw [getElem?_slice, getElem?_splice h]
  split
  · rw [if_pos (by omega), Nat.add_sub_cancel_left]
  · exact (List.getElem?_eq_none (by omega)).symm

theorem slice?_of_slice? {bs data : Bytes} {off len off' len' : Nat}
    (h : slice? bs off len = some data) (hle : off' + len' ≤ len) :
    slice? bs (off + off') len' = slice? data off' len' := by
  obtain ⟨hl, rfl⟩ := slice?_eq_some_iff.mp h
  have hdata : ((bs.drop off).take len).length = len := length_of_slice? h
  unfold slice?
  rw [if_pos (by omega), if_pos (by omega)]
  congr 1
  apply List.ext_getElem?
  intro j
  simp only [getElem?_slice]
  split
  · rw [if_pos (by omega), Nat.add_assoc]
  · rfl

/-- Two slices, one behind the other. -/
theorem slice?_add {bs x y : Bytes} {off m n : Nat} (hx : slice? bs off m = some x)
    (hy : slice? bs (off + m) n = some y) : slice? bs off (m + n) = some (x ++ y) := by
  obtain ⟨-, rfl⟩ := slice?_eq_some_iff.mp hx
  obtain ⟨hle, rfl⟩ := slice?_eq_some_iff.mp hy
  rw [slice?_eq_some_iff, List.take_add, List.drop_drop]
  exact ⟨by omega, rfl⟩

/-- A splice is not seen outside its place. -/
theorem slice?_splice_of_disjoint {bs patch : Bytes} {off off' len : Nat}
    (h : off + patch.length ≤ bs.length) (hd : off' + len ≤ off ∨ off + patch.length ≤ off') :
    slice? (splice bs off patch) off' len = slice? bs off' len := by
  unfold slice?
  rw [length_splice h]
  split
  · congr 1
    apply List.ext_getElem?
    intro j
    simp only [getElem?_slice, getElem?_splice h]
    split
    · rw [if_neg (by omega)]
    · rfl
  · rfl

theorem splice_comm {bs p q : Bytes} {off off' : Nat} (hp : off + p.length ≤ bs.length)
    (hq : off' + q.length ≤ bs.length) (hd : off + p.length ≤ off' ∨ off' + q.length ≤ off) :
    splice (splice bs off p) off' q = splice (splice bs off' q) off p := by
  apply List.ext_getElem?
  intro j
  rw [getElem?_splice (by rwa [length_splice hp]), getElem?_splice hp,
    getElem?_splice (by rwa [length_splice hq]), getElem?_splice hq]
  split
  · rw [if_neg (by omega)]
  · rfl

/-- A slice of a part of a byte string. -/
theorem slice?_middle (pre post : Bytes) {data : Bytes} {off len : Nat}
    (h : off + len ≤ data.length) :
    slice? (pre ++ data ++ post) (pre.length + off) len = slice? data off len := by
  have hl : pre.length + off + len ≤ (pre ++ data ++ post).length := by simp; omega
  unfold slice?
  rw [if_pos h, if_pos hl]
  congr 1
  apply List.ext_getElem?
  intro j
  simp only [getElem?_slice]
  split
  · rw [List.getElem?_append_left (by simp; omega), List.getElem?_append_right (by omega)]
    congr 1; omega
  · rfl

theorem splice_middle {pre data post patch : Bytes} {off : Nat}
    (h : off + patch.length ≤ data.length) :
    splice (pre ++ data ++ post) (pre.length + off) patch = pre ++ splice data off patch ++ post := by
  have hl : pre.length + off + patch.length ≤ (pre ++ data ++ post).length := by simp; omega
  have hs := length_splice h
  apply List.ext_getElem?
  intro j
  rw [getElem?_splice hl]
  simp only [List.append_assoc]
  rcases Nat.lt_or_ge j pre.length with h1 | h1
  · rw [if_neg (by omega), List.getElem?_append_left h1, List.getElem?_append_left h1]
  · rw [List.getElem?_append_right h1, List.getElem?_append_right h1]
    rcases Nat.lt_or_ge (j - pre.length) data.length with h2 | h2
    · rw [List.getElem?_append_left h2, List.getElem?_append_left (by omega), getElem?_splice h]
      split
      · rw [if_pos (by omega)]; congr 1; omega
      · rw [if_neg (by omega)]
    · rw [if_neg (by omega), List.getElem?_append_right h2, List.getElem?_append_right (by omega),
        hs]

/-! ## Writes -/

/-- A write of `size` bytes at `offset`, made of the bytes that were there. -/
structure Write where
  offset : Nat
  size : Nat
  new : Bytes → Bytes
  length_new : ∀ old, old.length = size → (new old).length = size

namespace Write

def apply (w : Write) (data : Bytes) : Bytes :=
  splice data w.offset (w.new ((data.drop w.offset).take w.size))

/-- The write lies within `len` bytes. -/
def Within (w : Write) (len : Nat) : Prop := w.offset + w.size ≤ len

/-- The writes are at places that do not overlap. -/
def Apart (w w' : Write) : Prop :=
  w.offset + w.size ≤ w'.offset ∨ w'.offset + w'.size ≤ w.offset

/-- The write in a byte string that has the data from `distance` on. -/
def shift (w : Write) (distance : Nat) : Write := { w with offset := distance + w.offset }

theorem Apart.symm {w w' : Write} (h : w.Apart w') : w'.Apart w := Or.symm h

theorem length_new_slice {w : Write} {data : Bytes} (h : w.Within data.length) :
    (w.new ((data.drop w.offset).take w.size)).length = w.size := by
  apply w.length_new
  unfold Within at h
  simp; omega

theorem length_apply {w : Write} {data : Bytes} (h : w.Within data.length) :
    (w.apply data).length = data.length := by
  apply length_splice
  rw [length_new_slice h]
  exact h

theorem slice?_apply_self {w : Write} {data : Bytes} (h : w.Within data.length) :
    slice? (w.apply data) w.offset w.size = some (w.new ((data.drop w.offset).take w.size)) := by
  have hl := length_new_slice h
  have hb : w.offset + (w.new ((data.drop w.offset).take w.size)).length ≤ data.length := by
    rw [hl]; exact h
  have := slice?_splice_self hb
  rwa [hl] at this

theorem slice?_apply_of_apart {w : Write} {data : Bytes} {off len : Nat}
    (h : w.Within data.length) (hd : off + len ≤ w.offset ∨ w.offset + w.size ≤ off) :
    slice? (w.apply data) off len = slice? data off len := by
  have hl := length_new_slice h
  apply slice?_splice_of_disjoint <;> rw [hl]
  · exact h
  · exact hd

/-- The bytes at the place of a write, in data that reaches beyond it. -/
theorem slice?_place {w : Write} {data : Bytes} (h : w.Within data.length) :
    slice? data w.offset w.size = some ((data.drop w.offset).take w.size) :=
  slice?_eq_some_iff.mpr ⟨h, rfl⟩

theorem place_apply_of_apart {w w' : Write} {data : Bytes} (h : w.Within data.length)
    (h' : w'.Within data.length) (ha : w.Apart w') :
    ((w.apply data).drop w'.offset).take w'.size = (data.drop w'.offset).take w'.size := by
  have hs := slice?_apply_of_apart h ha.symm
  rw [slice?_place h', slice?_place (by rwa [length_apply h])] at hs
  exact Option.some.inj hs

theorem apply_comm {w w' : Write} {data : Bytes} (h : w.Within data.length)
    (h' : w'.Within data.length) (ha : w.Apart w') :
    w'.apply (w.apply data) = w.apply (w'.apply data) := by
  have hl := length_new_slice h
  have hl' := length_new_slice h'
  -- Each write finds the bytes that stood there before the other.
  have e : w'.apply (w.apply data) =
      splice (w.apply data) w'.offset (w'.new ((data.drop w'.offset).take w'.size)) := by
    rw [apply, place_apply_of_apart h h' ha]
  have e' : w.apply (w'.apply data) =
      splice (w'.apply data) w.offset (w.new ((data.drop w.offset).take w.size)) := by
    rw [apply, place_apply_of_apart h' h ha.symm]
  rw [e, e']
  apply splice_comm
  · rw [hl]; exact h
  · rw [hl']; exact h'
  · rw [hl, hl']; exact ha

/-- A write for all of the bytes between two parts of a byte string. -/
theorem apply_between {w : Write} {pre old post : Bytes} (hoffset : w.offset = pre.length)
    (hsize : w.size = old.length) : w.apply (pre ++ (old ++ post)) = pre ++ (w.new old ++ post) := by
  have hplace : ((pre ++ (old ++ post)).drop w.offset).take w.size = old := by simp [hoffset, hsize]
  have hlen : (w.new old).length = old.length := (w.length_new old hsize.symm).trans hsize
  rw [apply, hplace, splice, hoffset, hlen]
  simp [List.drop_append]

theorem apply_middle {w : Write} {pre data post : Bytes} (h : w.Within data.length) :
    (w.shift pre.length).apply (pre ++ data ++ post) = pre ++ w.apply data ++ post := by
  have hs := slice?_middle pre post h
  have hw : (w.shift pre.length).Within (pre ++ data ++ post).length := by
    unfold Within shift at *; simp; omega
  rw [slice?_place h] at hs
  have hold := Option.some.inj ((slice?_place hw).symm.trans hs)
  unfold apply
  rw [hold]
  apply splice_middle
  rw [shift, length_new_slice h]
  exact h

end Write

/-! ## Sequences of writes -/

def writeAll (data : Bytes) (ws : List Write) : Bytes := ws.foldl (fun data w => w.apply data) data

@[simp] theorem writeAll_nil (data : Bytes) : writeAll data [] = data := rfl

@[simp] theorem writeAll_cons (data : Bytes) (w : Write) (ws : List Write) :
    writeAll data (w :: ws) = writeAll (w.apply data) ws := rfl

theorem writeAll_append (data : Bytes) (ws ws' : List Write) :
    writeAll data (ws ++ ws') = writeAll (writeAll data ws) ws' :=
  List.foldl_append

theorem length_writeAll {data : Bytes} {ws : List Write} (h : ∀ w ∈ ws, w.Within data.length) :
    (writeAll data ws).length = data.length := by
  induction ws generalizing data with
  | nil => rfl
  | cons w ws ih =>
    have hw := Write.length_apply (h w List.mem_cons_self)
    rw [writeAll_cons, ih (by rw [hw]; exact fun w' hw' => h w' (List.mem_cons_of_mem _ hw')), hw]

/-- Writes that do not touch the places of others may come after them. -/
theorem writeAll_swap {data : Bytes} {ws ws' : List Write} (hw : ∀ w ∈ ws, w.Within data.length)
    (hw' : ∀ w ∈ ws', w.Within data.length) (ha : ∀ w ∈ ws, ∀ w' ∈ ws', w.Apart w') :
    writeAll (writeAll data ws) ws' = writeAll (writeAll data ws') ws := by
  -- One write moves past all of `ws'`; then the same for the next one.
  have hone : ∀ {data : Bytes} {ws' : List Write} {w : Write}, w.Within data.length →
      (∀ w' ∈ ws', w'.Within data.length) → (∀ w' ∈ ws', w.Apart w') →
      writeAll (w.apply data) ws' = w.apply (writeAll data ws') := by
    intro data ws' w hw hws ha
    induction ws' generalizing data with
    | nil => rfl
    | cons v vs ih =>
      have hv := hws v List.mem_cons_self
      have hl := Write.length_apply hv
      rw [writeAll_cons, writeAll_cons, Write.apply_comm hw hv (ha v List.mem_cons_self)]
      apply ih
      · rwa [hl]
      · rw [hl]; exact fun w' h' => hws w' (List.mem_cons_of_mem _ h')
      · exact fun w' h' => ha w' (List.mem_cons_of_mem _ h')
  induction ws generalizing data with
  | nil => rfl
  | cons w ws ih =>
    have hw0 := hw w List.mem_cons_self
    have hl := Write.length_apply hw0
    rw [writeAll_cons, ih, hone hw0 hw' (ha w List.mem_cons_self), writeAll_cons]
    · rw [hl]; exact fun w' h' => hw w' (List.mem_cons_of_mem _ h')
    · rw [hl]; exact hw'
    · exact fun w' h' => ha w' (List.mem_cons_of_mem _ h')

/-- Groups of writes give the same bytes in every order, if no group touches the places of another.
Within a group the order stays. -/
theorem writeAll_flatMap_perm {α : Type} {f : α → List Write} {data : Bytes} {as bs : List α}
    (hp : as.Perm bs) (hw : ∀ a ∈ as, ∀ w ∈ f a, w.Within data.length)
    (ha : as.Pairwise fun a b => ∀ w ∈ f a, ∀ w' ∈ f b, w.Apart w') :
    writeAll data (as.flatMap f) = writeAll data (bs.flatMap f) := by
  induction hp generalizing data with
  | nil => rfl
  | @cons a l l' _ ih =>
    have hl := length_writeAll (hw a List.mem_cons_self)
    rw [List.flatMap_cons, List.flatMap_cons, writeAll_append, writeAll_append]
    apply ih
    · rw [hl]; exact fun b hb => hw b (List.mem_cons_of_mem _ hb)
    · exact (List.pairwise_cons.mp ha).2
  | swap a b l =>
    have hab := (List.pairwise_cons.mp ha).1 a List.mem_cons_self
    simp only [List.flatMap_cons, writeAll_append]
    rw [writeAll_swap (hw b (by simp)) (hw a (by simp)) hab]
  | trans hp _ ih ih' =>
    have hsymm : ∀ {a b : α}, (∀ w ∈ f a, ∀ w' ∈ f b, w.Apart w') →
        ∀ w ∈ f b, ∀ w' ∈ f a, w.Apart w' := fun h w hb w' ha => (h w' ha w hb).symm
    rw [ih hw ha]
    exact ih' (fun a h => hw a (hp.mem_iff.mpr h)) ((hp.pairwise_iff hsymm).mp ha)

theorem writeAll_perm {data : Bytes} {ws ws' : List Write} (hp : ws.Perm ws')
    (hw : ∀ w ∈ ws, w.Within data.length) (ha : ws.Pairwise Write.Apart) :
    writeAll data ws = writeAll data ws' := by
  have h := writeAll_flatMap_perm (f := fun w => [w]) hp (by simpa using hw) (by simpa using ha)
  simpa using h

/-- A place that no write touches keeps its bytes. -/
theorem slice?_writeAll_of_apart {data : Bytes} {ws : List Write} {off len : Nat}
    (hw : ∀ w ∈ ws, w.Within data.length)
    (hd : ∀ w ∈ ws, off + len ≤ w.offset ∨ w.offset + w.size ≤ off) :
    slice? (writeAll data ws) off len = slice? data off len := by
  induction ws generalizing data with
  | nil => rfl
  | cons w ws ih =>
    have hl := Write.length_apply (hw w List.mem_cons_self)
    rw [writeAll_cons, ih (by rw [hl]; exact fun w' hw' => hw w' (List.mem_cons_of_mem _ hw'))
      fun w' hw' => hd w' (List.mem_cons_of_mem _ hw')]
    exact Write.slice?_apply_of_apart (hw w List.mem_cons_self) (hd w List.mem_cons_self)

theorem slice?_writeAll {data : Bytes} {ws : List Write} {w : Write} (hmem : w ∈ ws)
    (hw : ∀ w ∈ ws, w.Within data.length) (ha : ws.Pairwise Write.Apart) :
    slice? (writeAll data ws) w.offset w.size =
      some (w.new ((data.drop w.offset).take w.size)) := by
  -- Bring the write to the end: the others leave its place alone.
  obtain ⟨pre, post, rfl⟩ := List.append_of_mem hmem
  have hperm : (pre ++ w :: post).Perm ((pre ++ post) ++ [w]) :=
    List.perm_middle.trans (List.perm_append_singleton w (pre ++ post)).symm
  have hothers : ∀ w' ∈ pre ++ post, w'.Within data.length := fun w' h' =>
    hw w' (by rcases List.mem_append.mp h' with h' | h' <;> simp [h'])
  have hapart : ∀ w' ∈ pre ++ post, w'.Apart w := by
    obtain ⟨-, hcons, hcross⟩ := List.pairwise_append.mp ha
    intro w' h'
    rcases List.mem_append.mp h' with h' | h'
    · exact hcross w' h' w List.mem_cons_self
    · exact ((List.pairwise_cons.mp hcons).1 w' h').symm
  have hlen := length_writeAll hothers
  have hplace := slice?_writeAll_of_apart hothers fun w' h' => (hapart w' h').symm
  have hin : w.Within (writeAll data (pre ++ post)).length := by rw [hlen]; exact hw w hmem
  rw [Write.slice?_place hin, Write.slice?_place (hw w hmem)] at hplace
  rw [writeAll_perm hperm hw ha, writeAll_append, writeAll_cons, writeAll_nil,
    Write.slice?_apply_self hin, Option.some.inj hplace]

theorem writeAll_middle (pre post : Bytes) {data : Bytes} {ws : List Write}
    (h : ∀ w ∈ ws, w.Within data.length) :
    writeAll (pre ++ data ++ post) (ws.map (·.shift pre.length)) =
      pre ++ writeAll data ws ++ post := by
  induction ws generalizing data with
  | nil => rfl
  | cons w ws ih =>
    have hl := Write.length_apply (h w List.mem_cons_self)
    rw [List.map_cons, writeAll_cons, writeAll_cons, Write.apply_middle (h w List.mem_cons_self)]
    exact ih (by rw [hl]; exact fun w' hw' => h w' (List.mem_cons_of_mem _ hw'))

end Dlx
