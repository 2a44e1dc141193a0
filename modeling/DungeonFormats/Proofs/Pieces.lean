import Mathlib
import DungeonFormats.Proofs.Builder

/-!
# Builders given pieces

A writer that only appends bytes, reserves fields and places labels gives its builder a list of
`Piece`s, and `Builder.putAll` is that writer. Finishing a builder made so writes the pieces in
turn, each field as the value computed from where the labels ended up, the first field that has
none being the fault (`finish_putAll`). A format's writer is then proved equal to `putAll` of its
pieces, and its bytes are read off `Piece.fill`.
-/

namespace DungeonFormats

theorem Except.bind_eq_ok_iff {ε α β : Type} {x : Except ε α} {f : α → Except ε β} {b : β} :
    x >>= f = .ok b ↔ ∃ a, x = .ok a ∧ f a = .ok b := by
  cases x <;> simp [bind, Except.bind]

theorem Except.bind_eq_error_iff {ε α β : Type} {x : Except ε α} {f : α → Except ε β} {e : ε} :
    x >>= f = .error e ↔ x = .error e ∨ ∃ a, x = .ok a ∧ f a = .error e := by
  cases x <;> simp [bind, Except.bind]

theorem Except.map_eq_error_iff {ε α β : Type} {x : Except ε α} {f : α → β} {e : ε} :
    x.map f = .error e ↔ x = .error e := by
  cases x <;> simp [Except.map]

variable {α : Type}

/-- What a writer gives a builder: bytes, a field, or a label at the current length. -/
inductive Piece (α : Type) where
  | bytes (bs : List UInt8)
  | field (f : Field α)
  | mark (l : α)

namespace Piece

/-- The bytes a piece appends before finishing: zeros for a field. -/
def raw : Piece α → List UInt8
  | .bytes bs => bs
  | .field f => List.replicate f.size 0
  | .mark _ => []

/-- The fields among pieces with their positions, the first piece at `n`. -/
def fields : Nat → List (Piece α) → List (Nat × Field α)
  | _, [] => []
  | n, .bytes bs :: ps => fields (n + bs.length) ps
  | n, .field f :: ps => (n, f) :: fields (n + f.size) ps
  | n, .mark _ :: ps => fields n ps

/-- The labels among pieces with their positions, in order, the first piece at `n`. -/
def marks : Nat → List (Piece α) → List (α × Nat)
  | _, [] => []
  | n, .bytes bs :: ps => marks (n + bs.length) ps
  | n, .field f :: ps => marks (n + f.size) ps
  | n, .mark l :: ps => (l, n) :: marks n ps

/-- The finished bytes of pieces whose first is at `n`, with the labels at `ms`: each field its
value, the first field without one being the fault. -/
def fill [DecidableEq α] (ms : List (α × Nat)) : Nat → List (Piece α) →
    Except (BuildFault α) (List UInt8)
  | _, [] => .ok []
  | n, .bytes bs :: ps => (bs ++ ·) <$> fill ms (n + bs.length) ps
  | n, .field f :: ps => do
    let v ← f.resolve ms n
    let rest ← fill ms (n + f.size) ps
    pure (v ++ rest)
  | n, .mark _ :: ps => fill ms n ps

end Piece

namespace Builder

/-- Gives the builder one piece. -/
def put (b : Builder α) : Piece α → Builder α
  | .bytes bs => b.append bs
  | .field f => b.reserve f
  | .mark l => b.place l

/-- Gives the builder pieces in order. -/
def putAll (b : Builder α) (ps : List (Piece α)) : Builder α :=
  ps.foldl put b

@[simp] theorem putAll_nil (b : Builder α) : b.putAll [] = b := rfl

@[simp] theorem putAll_cons (b : Builder α) (p : Piece α) (ps : List (Piece α)) :
    b.putAll (p :: ps) = (b.put p).putAll ps := rfl

@[simp] theorem putAll_append (b : Builder α) (ps qs : List (Piece α)) :
    b.putAll (ps ++ qs) = (b.putAll ps).putAll qs := by
  simp [putAll, List.foldl_append]

@[simp] theorem size_append (b : Builder α) (bs : List UInt8) :
    (b.append bs).size = b.size + bs.length := by
  simp only [append, size, ← Array.length_toList, Array.toList_appendList, List.length_append]

theorem size_put (b : Builder α) (p : Piece α) : (b.put p).size = b.size + p.raw.length := by
  cases p with
  | bytes bs => exact size_append b bs
  | field f =>
    change (b.append (List.replicate f.size 0)).size = _
    simp [Piece.raw]
  | mark l => rfl

theorem bytes_putAll (b : Builder α) (ps : List (Piece α)) :
    (b.putAll ps).bytes.toList = b.bytes.toList ++ ps.flatMap Piece.raw := by
  induction ps generalizing b with
  | nil => simp
  | cons p ps ih =>
    rw [putAll_cons, ih, List.flatMap_cons, ← List.append_assoc]
    congr 1
    cases p <;> simp [put, append, reserve, place, Piece.raw]

theorem size_putAll (b : Builder α) (ps : List (Piece α)) :
    (b.putAll ps).size = b.size + (ps.flatMap Piece.raw).length := by
  have := congrArg List.length (bytes_putAll b ps)
  simpa [size] using this

theorem fields_putAll (b : Builder α) (ps : List (Piece α)) :
    (b.putAll ps).fields.toList = b.fields.toList ++ Piece.fields b.size ps := by
  induction ps generalizing b with
  | nil => simp [Piece.fields]
  | cons p ps ih =>
    rw [putAll_cons, ih, size_put]
    cases p <;> simp [put, append, reserve, place, Piece.fields, Piece.raw, size]

theorem marks_putAll (b : Builder α) (ps : List (Piece α)) :
    (b.putAll ps).marks = (Piece.marks b.size ps).reverse ++ b.marks := by
  induction ps generalizing b with
  | nil => simp [Piece.marks]
  | cons p ps ih =>
    rw [putAll_cons, ih, size_put]
    cases p <;> simp [put, append, reserve, place, Piece.marks, Piece.raw]

end Builder

/-- Writing `v` over zeros of its length between `pre` and `rest` puts it in their place. -/
theorem toList_overwrite (a : Array UInt8) (pre v zeros rest : List UInt8)
    (ha : a.toList = pre ++ zeros ++ rest) (hv : v.length = zeros.length) :
    (overwrite a pre.length v).toList = pre ++ v ++ rest := by
  have hsize : a.size = pre.length + zeros.length + rest.length := by
    rw [← Array.length_toList, ha]
    simp only [List.length_append]
  apply List.ext_getElem?
  intro i
  rw [Array.getElem?_toList]
  by_cases hin : pre.length ≤ i ∧ i < pre.length + v.length
  · obtain ⟨j, rfl⟩ : ∃ j, i = pre.length + j := ⟨i - pre.length, by omega⟩
    rw [getElem?_overwrite_of_mem _ _ _ (by omega) (by omega), List.append_assoc,
      List.getElem?_append_right (by omega), Nat.add_sub_cancel_left,
      List.getElem?_append_left (by omega)]
  · rw [getElem?_overwrite_of_not_mem _ _ _ (by omega), ← Array.getElem?_toList, ha]
    rcases Nat.lt_or_ge i pre.length with hi | hi
    · simp [List.getElem?_append_left, hi]
    · simp only [List.append_assoc]
      rw [List.getElem?_append_right hi, List.getElem?_append_right hi,
        List.getElem?_append_right (by omega), List.getElem?_append_right (by omega), hv]

namespace Piece

variable [DecidableEq α]

/-- Finishing the fields of pieces laid after `pre` fills them in, or fails as `fill` does. -/
theorem foldlM_fields (ms : List (α × Nat)) :
    ∀ (ps : List (Piece α)) (pre : List UInt8) (acc : Array UInt8),
      acc.toList = pre ++ ps.flatMap raw →
      ((fields pre.length ps).foldlM (fillField ms) acc).map Array.toList =
        (fill ms pre.length ps).map (pre ++ ·)
  | [], pre, acc, h => by
    simp only [List.flatMap_nil, List.append_nil] at h
    simp [fields, fill, ← h, pure, Except.pure, Except.map]
  | .bytes bs :: ps, pre, acc, h => by
    have ih := foldlM_fields ms ps (pre ++ bs) acc (by simpa [raw] using h)
    rw [List.length_append] at ih
    simp only [fields, fill, ih]
    cases fill ms (pre.length + bs.length) ps <;> simp [Except.map]
  | .mark _ :: ps, pre, acc, h => by
    have ih := foldlM_fields ms ps pre acc (by simpa [raw] using h)
    simpa only [fields, fill] using ih
  | .field f :: ps, pre, acc, h => by
    simp only [fields, fill, List.foldlM_cons, fillField]
    cases hv : f.resolve ms pre.length with
    | error e => rfl
    | ok v =>
      have hlen : v.length = f.size := by
        have := (Field.resolve_eq_ok_iff.1 hv)
        exact Field.length_of_value this
      have hacc := toList_overwrite acc pre v (List.replicate f.size 0) (ps.flatMap raw)
        (by simpa [raw] using h) (by simpa using hlen)
      have ih := foldlM_fields ms ps (pre ++ v) (overwrite acc pre.length v) hacc
      rw [List.length_append, hlen] at ih
      simp only [bind, Except.bind, pure, Except.pure]
      rw [ih]
      cases fill ms (pre.length + f.size) ps <;> simp [Except.map]

end Piece

/-- Finishing a builder given pieces fills them in from the labels it placed. -/
theorem finish_putAll [DecidableEq α] (ps : List (Piece α)) :
    (Builder.empty.putAll ps).finish = Piece.fill (Builder.empty.putAll ps).marks 0 ps := by
  have hbytes : (Builder.empty.putAll ps).bytes.toList = [] ++ ps.flatMap Piece.raw := by
    simpa [Builder.empty] using Builder.bytes_putAll (Builder.empty : Builder α) ps
  have hfields : (Builder.empty.putAll ps).fields.toList = Piece.fields 0 ps := by
    simpa [Builder.empty, Builder.size] using Builder.fields_putAll (Builder.empty : Builder α) ps
  have h := Piece.foldlM_fields (Builder.empty.putAll ps).marks ps [] _ hbytes
  have hid : ∀ e : Except (BuildFault α) (List UInt8), e.map (fun x => x) = e := by
    intro e
    cases e <;> rfl
  simp only [List.length_nil, List.nil_append, hid] at h
  unfold Builder.finish
  rw [hfields, ← h]
  show ((Piece.fields 0 ps).foldlM (fillField _) _ >>= fun out => pure out.toList) = _
  cases (Piece.fields 0 ps).foldlM (fillField (Builder.empty.putAll ps).marks)
    (Builder.empty.putAll ps).bytes <;> rfl

namespace Piece

theorem fields_append (n : Nat) (ps qs : List (Piece α)) :
    fields n (ps ++ qs) = fields n ps ++ fields (n + (ps.flatMap raw).length) qs := by
  induction ps generalizing n with
  | nil => simp [fields]
  | cons p ps ih => cases p <;> simp [fields, ih, raw, Nat.add_assoc]

theorem marks_append (n : Nat) (ps qs : List (Piece α)) :
    marks n (ps ++ qs) = marks n ps ++ marks (n + (ps.flatMap raw).length) qs := by
  induction ps generalizing n with
  | nil => simp [marks]
  | cons p ps ih => cases p <;> simp [marks, ih, raw, Nat.add_assoc]

/-- The bytes of a finished piece, each field's taken from `val`. -/
def filled (val : Field α → List UInt8) : Piece α → List UInt8
  | .bytes bs => bs
  | .field f => val f
  | .mark _ => []

variable [DecidableEq α]

/-- Where every field resolves to the value `val` gives it, finishing fills those values in. -/
theorem fill_eq_of_resolve (ms : List (α × Nat)) (val : Field α → List UInt8) :
    ∀ (n : Nat) (ps : List (Piece α)),
      (∀ q ∈ fields n ps, q.2.resolve ms q.1 = .ok (val q.2)) →
        fill ms n ps = .ok (ps.flatMap (filled val))
  | _, [], _ => rfl
  | n, .bytes bs :: ps, h => by
    simp only [fill, fill_eq_of_resolve ms val _ ps h]
    rfl
  | n, .field f :: ps, h => by
    have h0 := h (n, f) List.mem_cons_self
    have hrest := fill_eq_of_resolve ms val (n + f.size) ps
      (fun q hq => h q (List.mem_cons_of_mem _ hq))
    simp only [fill, h0, hrest]
    rfl
  | n, .mark _ :: ps, h => by
    simpa [fill, filled] using fill_eq_of_resolve ms val n ps h

/-- Finishing succeeds only if every field resolves. -/
theorem resolve_of_fill (ms : List (α × Nat)) :
    ∀ (n : Nat) (ps : List (Piece α)) (out : List UInt8), fill ms n ps = .ok out →
      ∀ q ∈ fields n ps, ∃ v, q.2.resolve ms q.1 = .ok v
  | _, [], _, _, q, hq => by simp [fields] at hq
  | n, .bytes bs :: ps, out, h, q, hq => by
    simp only [fill] at h
    cases hr : fill ms (n + bs.length) ps with
    | error e => rw [hr] at h; cases h
    | ok rest => exact resolve_of_fill ms _ ps rest hr q hq
  | n, .field f :: ps, out, h, q, hq => by
    simp only [fill] at h
    obtain ⟨v, hv, h⟩ := Except.bind_eq_ok_iff.1 h
    obtain ⟨rest, hr, -⟩ := Except.bind_eq_ok_iff.1 h
    simp only [fields, List.mem_cons] at hq
    rcases hq with rfl | hq
    · exact ⟨v, hv⟩
    · exact resolve_of_fill ms _ ps rest hr q hq
  | n, .mark _ :: ps, out, h, q, hq => by
    simp only [fill] at h
    exact resolve_of_fill ms n ps out h q hq

/-- A fault of finishing is the fault of one of the fields. -/
theorem resolve_of_fill_error (ms : List (α × Nat)) :
    ∀ (n : Nat) (ps : List (Piece α)) (f : BuildFault α), fill ms n ps = .error f →
      ∃ q ∈ fields n ps, q.2.resolve ms q.1 = .error f
  | _, [], _, h => by cases h
  | n, .bytes bs :: ps, f, h => by
    simp only [fill] at h
    exact resolve_of_fill_error ms _ ps f (Except.map_eq_error_iff.1 h)
  | n, .field g :: ps, f, h => by
    simp only [fill] at h
    -- the field's own value fails, or the rest does after it
    rcases Except.bind_eq_error_iff.1 h with hv | ⟨v, -, h⟩
    · exact ⟨(n, g), List.mem_cons_self, hv⟩
    rcases Except.bind_eq_error_iff.1 h with hr | ⟨rest, -, h⟩
    · obtain ⟨q, hq, hres⟩ := resolve_of_fill_error ms _ ps f hr
      exact ⟨q, List.mem_cons_of_mem _ hq, hres⟩
    · cases h
  | n, .mark _ :: ps, f, h => by
    simp only [fill] at h
    exact resolve_of_fill_error ms n ps f h

end Piece

theorem lookup_cons_eq_ite {β : Type} [DecidableEq α] (a k : α) (b : β) (l : List (α × β)) :
    ((k, b) :: l).lookup a = if a = k then some b else l.lookup a := by
  rw [List.lookup_cons]
  by_cases h : a = k
  · simp [h]
  · have hb : (a == k) = false := beq_eq_false_iff_ne.2 h
    simp only [hb, h, if_false]

namespace Piece

theorem field_mem_of_mem_fields :
    ∀ {n : Nat} {ps : List (Piece α)} {q : Nat × Field α}, q ∈ fields n ps → field q.2 ∈ ps
  | _, [], _, h => by simp [fields] at h
  | n, .bytes bs :: ps, q, h => List.mem_cons_of_mem _ (field_mem_of_mem_fields h)
  | n, .field f :: ps, q, h => by
    simp only [fields, List.mem_cons] at h
    rcases h with rfl | h
    · exact List.mem_cons_self
    · exact List.mem_cons_of_mem _ (field_mem_of_mem_fields h)
  | n, .mark _ :: ps, q, h => List.mem_cons_of_mem _ (field_mem_of_mem_fields h)

theorem mem_fields_of_field_mem :
    ∀ {n : Nat} {ps : List (Piece α)} {f : Field α}, field f ∈ ps → ∃ p, (p, f) ∈ fields n ps
  | _, [], _, h => by simp at h
  | n, .bytes bs :: ps, f, h => by
    obtain ⟨p, hp⟩ := mem_fields_of_field_mem (n := n + bs.length) (by simpa using h)
    exact ⟨p, by simpa [fields] using hp⟩
  | n, .field g :: ps, f, h => by
    simp only [List.mem_cons, field.injEq] at h
    rcases h with rfl | h
    · exact ⟨n, by simp [fields]⟩
    · obtain ⟨p, hp⟩ := mem_fields_of_field_mem (n := n + g.size) h
      exact ⟨p, by simp [fields, hp]⟩
  | n, .mark _ :: ps, f, h => by
    obtain ⟨p, hp⟩ := mem_fields_of_field_mem (n := n) (by simpa using h)
    exact ⟨p, by simpa [fields] using hp⟩

/-- Pieces without fields are finished as they were given. -/
theorem flatMap_filled_of_no_field (val : Field α → List UInt8) :
    ∀ (ps : List (Piece α)), (∀ f, field f ∉ ps) → ps.flatMap (filled val) = ps.flatMap raw
  | [], _ => rfl
  | p :: ps, h => by
    have hrest := flatMap_filled_of_no_field val ps (fun f hf => h f (List.mem_cons_of_mem _ hf))
    cases p with
    | bytes bs => simp [filled, raw, hrest]
    | field f => exact absurd List.mem_cons_self (h f)
    | mark l => simp [filled, raw, hrest]

end Piece

/-- A label's position after pieces: the last place the pieces give it, else where it was. -/
theorem Builder.find?_putAll [DecidableEq α] (b : Builder α) (ps : List (Piece α)) (a : α) :
    (b.putAll ps).find? a = ((Piece.marks b.size ps).reverse.lookup a).or (b.find? a) := by
  simp [Builder.find?, Builder.marks_putAll, List.lookup_append]

end DungeonFormats
