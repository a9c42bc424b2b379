import Mathlib

set_option autoImplicit false

/- Fields that end at a delimiter, streams that are cut into pieces, and lists of items
read one after another up to a stopping point. -/
namespace Delimited

variable {α β ε : Type}

section Fields

variable [DecidableEq α] (d : α)

/-- The elements before the first delimiter and those behind it. -/
def takeField : List α → Option (List α × List α)
  | [] => none
  | x :: xs => if x = d then some ([], xs) else (takeField xs).map fun p => (x :: p.1, p.2)

variable {d}

theorem takeField_append {field : List α} (clean : d ∉ field) (rest : List α) :
    takeField d (field ++ d :: rest) = some (field, rest) := by
  induction field with
  | nil => simp [takeField]
  | cons x field ih =>
      simp only [List.mem_cons, not_or] at clean
      simp [takeField, Ne.symm clean.1, ih clean.2]

theorem takeField_eq_some {xs field rest : List α} (found : takeField d xs = some (field, rest)) :
    d ∉ field ∧ xs = field ++ d :: rest := by
  induction xs generalizing field with
  | nil => cases found
  | cons x xs ih =>
      by_cases same : x = d
      · simp only [takeField, same, ↓reduceIte, Option.some.injEq, Prod.mk.injEq] at found
        obtain ⟨rfl, rfl⟩ := found
        simp [same]
      · simp only [takeField, same, ↓reduceIte, Option.map_eq_some_iff, Prod.mk.injEq] at found
        obtain ⟨⟨front, back⟩, inner, rfl, rfl⟩ := found
        obtain ⟨clean, whole⟩ := ih inner
        exact ⟨by simp [clean, Ne.symm same], by simp [whole]⟩

theorem takeField_eq_none {xs : List α} : takeField d xs = none ↔ d ∉ xs := by
  induction xs with
  | nil => simp [takeField]
  | cons x xs ih =>
      by_cases same : x = d
      · simp [takeField, same]
      · simp [takeField, same, ih, Ne.symm same]

variable (d)

/-- All fields that a delimiter ends, in order. -/
def segments : List α → List (List α)
  | [] => []
  | x :: xs =>
      if x = d then [] :: segments xs
      else match segments xs with
        | [] => []
        | s :: rest => (x :: s) :: rest

/-- The elements behind the last delimiter. -/
def residue : List α → List α
  | [] => []
  | x :: xs => if d ∈ x :: xs then residue xs else x :: xs

variable {d}

theorem segments_length (xs : List α) : (segments d xs).length = xs.count d := by
  induction xs with
  | nil => rfl
  | cons x xs ih =>
      by_cases same : x = d
      · simp [segments, same, ih]
      · rw [segments, if_neg same, List.count_cons_of_ne same, ← ih]
        cases segments d xs <;> rfl

theorem segments_free (xs : List α) : ∀ field ∈ segments d xs, d ∉ field := by
  induction xs with
  | nil => exact nofun
  | cons x xs ih =>
      intro field member
      by_cases same : x = d
      · rw [segments, if_pos same] at member
        rcases List.mem_cons.mp member with rfl | member
        · exact List.not_mem_nil
        · exact ih field member
      · rw [segments, if_neg same] at member
        cases found : segments d xs with
        | nil =>
            rw [found] at member
            cases member
        | cons first rest =>
            rw [found] at member ih
            rcases List.mem_cons.mp member with rfl | member
            · have clean := ih first (List.mem_cons_self ..)
              simpa [Ne.symm same] using clean
            · exact ih field (List.mem_cons_of_mem _ member)

theorem segments_clean {xs : List α} (clean : d ∉ xs) : segments d xs = [] := by
  rw [← List.length_eq_zero_iff, segments_length, List.count_eq_zero]
  exact clean

theorem segments_field {field : List α} (clean : d ∉ field) (rest : List α) :
    segments d (field ++ d :: rest) = field :: segments d rest := by
  induction field with
  | nil => simp [segments]
  | cons x field ih =>
      simp only [List.mem_cons, not_or] at clean
      rw [List.cons_append, segments, if_neg (Ne.symm clean.1), ih clean.2]

/-- The first field ends at the first delimiter, and the others lie behind it. -/
theorem segments_eq_cons {xs field : List α} {fields : List (List α)}
    (found : segments d xs = field :: fields) :
    ∃ rest, xs = field ++ d :: rest ∧ d ∉ field ∧ segments d rest = fields := by
  cases taken : takeField d xs with
  | none =>
      rw [segments_clean (takeField_eq_none.mp taken)] at found
      cases found
  | some p =>
      obtain ⟨clean, whole⟩ := takeField_eq_some (show takeField d xs = some (p.1, p.2) from taken)
      rw [whole, segments_field clean] at found
      obtain ⟨rfl, rest⟩ := List.cons.inj found
      exact ⟨p.2, whole, clean, rest⟩

/-- Fields that are each written with the delimiter behind them are found again. -/
theorem segments_fields (fields : List (List α)) (clean : ∀ field ∈ fields, d ∉ field)
    (rest : List α) :
    segments d (fields.flatMap (· ++ [d]) ++ rest) = fields ++ segments d rest := by
  induction fields with
  | nil => rfl
  | cons field fields ih =>
      rw [List.flatMap_cons, List.append_assoc, List.append_assoc, List.singleton_append,
        segments_field (clean field (List.mem_cons_self ..)),
        ih fun other member => clean other (List.mem_cons_of_mem _ member)]
      rfl

theorem count_fields (fields : List (List α)) (clean : ∀ field ∈ fields, d ∉ field)
    (rest : List α) :
    (fields.flatMap (· ++ [d]) ++ rest).count d = fields.length + rest.count d := by
  rw [← segments_length, segments_fields fields clean, List.length_append, segments_length]

theorem residue_clean {xs : List α} (clean : d ∉ xs) : residue d xs = xs := by
  cases xs with
  | nil => rfl
  | cons x xs => rw [residue, if_neg clean]

/-- The delimiter closes the field that the elements behind the last one began. -/
theorem segments_concat (xs : List α) :
    segments d (xs ++ [d]) = segments d xs ++ [residue d xs] := by
  induction xs with
  | nil => simp [segments, residue]
  | cons x xs ih =>
      by_cases same : x = d
      · rw [List.cons_append, segments, if_pos same, ih, segments, if_pos same, residue,
          if_pos (by simp [same])]
        rfl
      · rw [List.cons_append, segments, if_neg same, ih, segments, if_neg same]
        by_cases member : d ∈ xs
        · rw [residue, if_pos (List.mem_cons_of_mem _ member)]
          cases found : segments d xs with
          | nil =>
              rw [← List.length_eq_zero_iff, segments_length, List.count_eq_zero] at found
              exact absurd member found
          | cons s rest => rfl
        · have clean : d ∉ x :: xs := by simp [Ne.symm same, member]
          rw [segments_clean member, residue_clean member, residue_clean clean]
          rfl

theorem segments_concat_ne {x : α} (other : x ≠ d) (xs : List α) :
    segments d (xs ++ [x]) = segments d xs := by
  induction xs with
  | nil => simp [segments, other]
  | cons y xs ih => rw [List.cons_append, segments, ih, segments]

theorem residue_concat (xs : List α) : residue d (xs ++ [d]) = [] := by
  induction xs with
  | nil => simp [residue]
  | cons x xs ih => rw [List.cons_append, residue, if_pos (by simp), ih]

theorem residue_concat_ne {x : α} (other : x ≠ d) (xs : List α) :
    residue d (xs ++ [x]) = residue d xs ++ [x] := by
  induction xs with
  | nil => simp [residue, Ne.symm other]
  | cons y xs ih =>
      rw [List.cons_append, residue, residue, ← List.cons_append]
      by_cases member : d ∈ y :: xs
      · rw [if_pos (List.mem_append_left [x] member), if_pos member, ih]
      · rw [if_neg member, if_neg (by simpa [Ne.symm other] using member)]

theorem residue_suffix (xs : List α) : residue d xs <:+ xs := by
  induction xs with
  | nil => exact List.suffix_rfl
  | cons x xs ih =>
      rw [residue]
      split
      · exact ih.trans (List.suffix_cons x xs)
      · exact List.suffix_rfl

theorem residue_free (xs : List α) : d ∉ residue d xs := by
  induction xs with
  | nil => exact List.not_mem_nil
  | cons x xs ih =>
      rw [residue]
      split
      · exact ih
      · rename_i clean
        exact clean

/-- The fields, each with its delimiter behind it, and what lies behind the last
delimiter are the whole list. -/
theorem fields_residue (xs : List α) :
    (segments d xs).flatMap (· ++ [d]) ++ residue d xs = xs := by
  induction xs using List.reverseRecOn with
  | nil => rfl
  | append_singleton xs x ih =>
      by_cases same : x = d
      · subst same
        rw [segments_concat, residue_concat, List.flatMap_append, List.flatMap_singleton,
          List.append_nil, ← List.append_assoc, ih]
      · rw [segments_concat_ne same, residue_concat_ne same, ← List.append_assoc, ih]

end Fields

/-- Whether a list begins with something without a delimiter is decided in its first field. -/
theorem prefix_field {d : α} {keyword field rest : List α} (clean : d ∉ keyword) :
    keyword <+: field ++ d :: rest ↔ keyword <+: field := by
  constructor
  · intro begins
    rcases List.prefix_or_prefix_of_prefix begins (List.prefix_append field (d :: rest)) with
      inside | ⟨beyond, rfl⟩
    · exact inside
    · cases beyond with
      | nil => rw [List.append_nil]
      | cons x beyond =>
          have same := (List.cons_prefix_cons.mp ((List.prefix_append_right_inj field).mp begins)).1
          exact absurd (List.mem_append_right field (same ▸ List.mem_cons_self ..)) clean
  · intro begins
    exact begins.trans (List.prefix_append _ _)

section Pieces

variable {size : Nat} {pieces blocks : List (List α)}

theorem flatten_length_le (bound : ∀ piece ∈ pieces, piece.length ≤ size) :
    pieces.flatten.length ≤ pieces.length * size := by
  have total := List.sum_le_card_nsmul (pieces.map List.length) size fun n member => by
    obtain ⟨piece, inside, rfl⟩ := List.mem_map.mp member
    exact bound piece inside
  rwa [List.length_map, smul_eq_mul, ← List.length_flatten] at total

/-- A stream of full blocks has only one cut into as many pieces that are not larger. -/
theorem pieces_eq_blocks (bound : ∀ piece ∈ pieces, piece.length ≤ size)
    (full : ∀ block ∈ blocks, block.length = size) (stream : pieces.flatten = blocks.flatten)
    (number : pieces.length = blocks.length) : pieces = blocks := by
  induction blocks generalizing pieces with
  | nil => exact List.length_eq_zero_iff.mp number
  | cons block blocks ih =>
      cases pieces with
      | nil => cases number
      | cons piece pieces =>
          rw [List.flatten_cons, List.flatten_cons] at stream
          rw [List.length_cons, List.length_cons, Nat.add_right_cancel_iff] at number
          have piecesBound : ∀ other ∈ pieces, other.length ≤ size := fun other member =>
            bound other (List.mem_cons_of_mem _ member)
          have blocksFull : ∀ other ∈ blocks, other.length = size := fun other member =>
            full other (List.mem_cons_of_mem _ member)
          have head : piece.length = block.length := by
            have lengths := congrArg List.length stream
            rw [List.length_append, List.length_append, List.length_flatten (L := blocks),
              List.map_congr_left blocksFull, List.map_const', List.sum_replicate,
              smul_eq_mul] at lengths
            have small := bound piece (List.mem_cons_self ..)
            have whole := full block (List.mem_cons_self ..)
            have tail := flatten_length_le piecesBound
            rw [number] at tail
            omega
          obtain ⟨same, rest⟩ := List.append_inj stream head
          rw [same, ih piecesBound blocksFull rest number]

end Pieces

section Items

/-- A reader of one item, which always consumes something. -/
structure Reader (α β ε : Type) where
  read : List α → Except ε (β × List α)
  shrinks : ∀ {xs item rest}, read xs = .ok (item, rest) → rest.length < xs.length

/-- Read items until the stopping test holds of what is left; the test is made
after each item, so at least one is read. -/
def readUntil (reader : Reader α β ε) (stop : List α → Bool) (xs : List α) :
    Except ε (List β) :=
  match _found : reader.read xs with
  | .error e => .error e
  | .ok (item, rest) =>
      if stop rest then .ok [item]
      else match readUntil reader stop rest with
        | .error e => .error e
        | .ok items => .ok (item :: items)
termination_by xs.length
decreasing_by exact reader.shrinks _found

variable {reader : Reader α β ε} {stop : List α → Bool}

theorem readUntil_error {xs : List α} {e : ε} (failed : reader.read xs = .error e) :
    readUntil reader stop xs = .error e := by
  rw [readUntil]
  split
  · simp_all
  · simp_all

theorem readUntil_stop {xs rest : List α} {item : β} (found : reader.read xs = .ok (item, rest))
    (last : stop rest = true) : readUntil reader stop xs = .ok [item] := by
  rw [readUntil]
  split
  · simp_all
  · simp_all

theorem readUntil_more {xs rest : List α} {item : β} (found : reader.read xs = .ok (item, rest))
    (more : stop rest = false) :
    readUntil reader stop xs = (readUntil reader stop rest).map (item :: ·) := by
  rw [readUntil]
  split
  · simp_all
  · rename_i found'
    rw [found] at found'
    cases found'
    rw [if_neg (by simp [more])]
    cases readUntil reader stop rest <;> rfl

/-- The items that have been read, and what is left behind them, while the loop has not
been left. -/
inductive Passes (reader : Reader α β ε) (stop : List α → Bool) :
    List α → List β → List α → Prop where
  | nil (xs : List α) : Passes reader stop xs [] xs
  | cons {xs rest tail : List α} {item : β} {items : List β}
      (head : reader.read xs = .ok (item, rest)) (more : stop rest = false)
      (passes : Passes reader stop rest items tail) : Passes reader stop xs (item :: items) tail

theorem readUntil_eq_error {xs : List α} {e : ε} :
    readUntil reader stop xs = .error e ↔
      ∃ items rest, Passes reader stop xs items rest ∧ reader.read rest = .error e := by
  constructor
  · intro failed
    induction xs using readUntil.induct reader stop with
    | case1 xs e' here =>
        rw [readUntil_error here] at failed
        cases failed
        exact ⟨[], xs, .nil xs, here⟩
    | case2 xs item rest head last =>
        rw [readUntil_stop head last] at failed
        cases failed
    | case3 xs item rest head more e' inner ih =>
        have going : stop rest = false := by simpa using more
        rw [readUntil_more head going, inner] at failed
        cases failed
        obtain ⟨items, tail, passes, here⟩ := ih inner
        exact ⟨item :: items, tail, .cons head going passes, here⟩
    | case4 xs item rest head more items inner ih =>
        rw [readUntil_more head (by simpa using more), inner] at failed
        cases failed
  · rintro ⟨items, rest, passes, here⟩
    induction passes with
    | nil xs => exact readUntil_error here
    | cons head more _ ih =>
        rw [readUntil_more head more, ih here]
        rfl

/-- The loop returns exactly where it is left behind the last item of a pass. -/
theorem readUntil_eq_ok {xs : List α} {all : List β} :
    readUntil reader stop xs = .ok all ↔
      ∃ items rest item tail, Passes reader stop xs items rest ∧
        reader.read rest = .ok (item, tail) ∧ stop tail = true ∧ all = items ++ [item] := by
  constructor
  · intro found
    induction xs using readUntil.induct reader stop generalizing all with
    | case1 xs e here =>
        rw [readUntil_error here] at found
        cases found
    | case2 xs item rest head last =>
        rw [readUntil_stop head last] at found
        cases found
        exact ⟨[], xs, item, rest, .nil xs, head, last, rfl⟩
    | case3 xs item rest head more e inner ih =>
        rw [readUntil_more head (by simpa using more), inner] at found
        cases found
    | case4 xs item rest head more items' inner ih =>
        have going : stop rest = false := by simpa using more
        rw [readUntil_more head going, inner] at found
        cases found
        obtain ⟨items, middle, last, tail, passes, final, left, rfl⟩ := ih inner
        exact ⟨item :: items, middle, last, tail, .cons head going passes, final, left, rfl⟩
  · rintro ⟨items, rest, item, tail, passes, final, left, rfl⟩
    induction passes with
    | nil xs => exact readUntil_stop final left
    | cons head more _ ih =>
        rw [readUntil_more head more, ih final]
        rfl

/-- Reading back what was written item by item, when the test holds exactly at
the end of the last item. -/
theorem readUntil_written (write : β → List α) (items : List β) (nonempty : items ≠ [])
    (tail : List α)
    (reads : ∀ item ∈ items, ∀ rest, reader.read (write item ++ rest) = .ok (item, rest))
    (stops : ∀ back, back <:+ items → (stop (back.flatMap write ++ tail) = true ↔ back = [])) :
    readUntil reader stop (items.flatMap write ++ tail) = .ok items := by
  induction items with
  | nil => exact absurd rfl nonempty
  | cons item items ih =>
      have found : reader.read ((item :: items).flatMap write ++ tail) =
          .ok (item, items.flatMap write ++ tail) := by
        rw [List.flatMap_cons, List.append_assoc]
        exact reads item (List.mem_cons_self ..) _
      by_cases empty : items = []
      · subst empty
        exact readUntil_stop found ((stops [] (List.nil_suffix)).mpr rfl)
      · have more : stop (items.flatMap write ++ tail) = false := by
          rw [← Bool.not_eq_true, stops items (List.suffix_cons ..)]
          exact empty
        rw [readUntil_more found more,
          ih empty (fun b member => reads b (List.mem_cons_of_mem _ member))
            (fun back ordered => stops back (ordered.trans (List.suffix_cons ..)))]
        rfl

/-- What the passes have read is what a writer of these items would have written. -/
theorem Passes.sound {xs rest : List α} {items : List β} (passes : Passes reader stop xs items rest)
    (write : β → List α) (good : β → Prop)
    (sound : ∀ xs item rest, reader.read xs = .ok (item, rest) →
      xs = write item ++ rest ∧ good item) :
    xs = items.flatMap write ++ rest ∧ (∀ item ∈ items, good item) ∧
      ∀ back, back <:+ items → back ≠ items → stop (back.flatMap write ++ rest) = false := by
  induction passes with
  | nil xs =>
      refine ⟨rfl, nofun, fun back ordered shorter => ?_⟩
      exact absurd (List.suffix_nil.mp ordered) shorter
  | cons head more passes ih =>
      rename_i xs rest tail item items
      obtain ⟨whole, fine, inside⟩ := ih
      obtain ⟨front, first⟩ := sound _ _ _ head
      refine ⟨?_, ?_, fun back ordered shorter => ?_⟩
      · rw [front, List.flatMap_cons, List.append_assoc, ← whole]
      · intro other member
        rcases List.mem_cons.mp member with rfl | member
        · exact first
        · exact fine other member
      · rcases List.suffix_cons_iff.mp ordered with same | later
        · exact absurd same shorter
        · by_cases all : back = items
          · rwa [all, ← whole]
          · exact inside back later all

theorem passes_written (write : β → List α) (items : List β) (tail : List α)
    (reads : ∀ item ∈ items, ∀ rest, reader.read (write item ++ rest) = .ok (item, rest))
    (inside : ∀ back, back <:+ items → back ≠ items → stop (back.flatMap write ++ tail) = false) :
    Passes reader stop (items.flatMap write ++ tail) items tail := by
  induction items with
  | nil => exact .nil tail
  | cons item items ih =>
      rw [List.flatMap_cons, List.append_assoc]
      refine .cons (reads item (List.mem_cons_self ..) _) ?_ ?_
      · exact inside items (List.suffix_cons ..) List.ne_cons_self
      · apply ih fun other member => reads other (List.mem_cons_of_mem _ member)
        intro back ordered _
        apply inside back (ordered.trans (List.suffix_cons ..))
        rintro rfl
        exact absurd ordered.length_le (by simp)

/-- Where the text of some items begins that of others, the items begin the others. -/
theorem written_front (write : β → List α) (good : β → Prop)
    (reads : ∀ item, good item → ∀ rest, reader.read (write item ++ rest) = .ok (item, rest))
    {items others : List β} {rest : List α} (fine : ∀ item ∈ items, good item)
    (fine' : ∀ item ∈ others, good item)
    (same : items.flatMap write ++ rest = others.flatMap write) :
    ∃ back, others = items ++ back ∧ rest = back.flatMap write := by
  induction items generalizing others with
  | nil => exact ⟨others, rfl, same⟩
  | cons item items ih =>
      have here := reads item (fine item (List.mem_cons_self ..)) (items.flatMap write ++ rest)
      rw [← List.append_assoc, ← List.flatMap_cons, same] at here
      cases others with
      | nil => exact absurd (reader.shrinks here) (Nat.not_lt_zero _)
      | cons other others =>
          rw [List.flatMap_cons, reads other (fine' other (List.mem_cons_self ..))] at here
          obtain ⟨rfl, behind⟩ := Prod.mk.inj (Except.ok.inj here)
          obtain ⟨back, rfl, left⟩ := ih (fun b member => fine b (List.mem_cons_of_mem _ member))
            (fun b member => fine' b (List.mem_cons_of_mem _ member)) behind.symm
          exact ⟨back, rfl, left⟩

/-- What has been read is what a writer of these items would have written. -/
theorem readUntil_sound (write : β → List α) (good : β → Prop)
    (sound : ∀ xs item rest, reader.read xs = .ok (item, rest) →
      xs = write item ++ rest ∧ good item)
    {xs : List α} {items : List β} (found : readUntil reader stop xs = .ok items) :
    ∃ tail, xs = items.flatMap write ++ tail ∧ stop tail = true ∧ items ≠ [] ∧
      ∀ item ∈ items, good item := by
  obtain ⟨earlier, rest, item, tail, passes, last, left, rfl⟩ := readUntil_eq_ok.mp found
  obtain ⟨whole, fine, _⟩ := passes.sound write good sound
  obtain ⟨final, best⟩ := sound _ _ _ last
  refine ⟨tail, ?_, left, by simp, ?_⟩
  · rw [whole, final, List.flatMap_append, List.flatMap_singleton, List.append_assoc]
  · intro other member
    rcases List.mem_append.mp member with before | here
    · exact fine other before
    · rw [List.mem_singleton.mp here]
      exact best

end Items

end Delimited
