import Mathlib
import DungeonFormats.Proofs.Grouping
import DungeonFormats.Proofs.CodeRead

/-!
# Regrouping

`Code.arrange` cuts the walk over the code into groups at the ends its group table gives, and
those can be any offsets. Writing the groups back lays them out one after another, so the group
table read the next time ends each group right past the items that group was given (`cutAt`).
A walk over such ends hands out the same instructions (`walk_recut`): every item reaches the
group it reached before, and a fold that stopped at a group end stops again, since the item after
it now opens the next group. Labels enter a walk only through the offsets they mark
(`walk_congr_at`), so a table with other first words arranges the same code alike.
-/

namespace DungeonFormats.Script

/-- Taking while `q` holds gives what taking while `p` does when `q` holds on what `p` took and,
at the element where `p` stopped, holds only where `p` does. -/
theorem takeWhile_eq_of_stop {α : Type} {p q : α → Bool} :
    ∀ {l : List α}, (∀ y ∈ l.takeWhile p, q y = true) →
      (∀ y ∈ (l.drop (l.takeWhile p).length).head?, q y = true → p y = true) →
      l.takeWhile q = l.takeWhile p
  | [], _, _ => rfl
  | a :: l, hpre, hstop => by
    by_cases hp : p a = true
    · rw [List.takeWhile_cons_of_pos hp] at hpre hstop ⊢
      rw [List.takeWhile_cons_of_pos (hpre a List.mem_cons_self)]
      congr 1
      exact takeWhile_eq_of_stop (fun y hy => hpre y (List.mem_cons_of_mem _ hy)) (by simpa using hstop)
    · rw [List.takeWhile_cons_of_neg hp] at hstop ⊢
      exact List.takeWhile_cons_of_neg fun hq => hp (hstop a rfl hq)

/-! ## Moving through the groups -/

/-- The group an item reaches is fixed by the ends it passes and the end it stops before. -/
theorem advance_eq_of_bounds {ends : List Nat} {cur o g : Nat} (hle : cur ≤ g) (hlt : g < ends.length)
    (hpast : ∀ j, cur ≤ j → j < g → ends.getD j 0 ≤ o)
    (hstop : g + 1 < ends.length → o < ends.getD g 0) : advance ends cur o = g := by
  fun_induction advance ends cur o with
  | case1 cur hnext hreach ih =>
    -- the walk moves on, so `cur` is not yet `g`
    have hne : cur ≠ g := by
      rintro rfl
      have := hstop hnext
      rw [List.getD_eq_getElem _ _ (by omega)] at this
      omega
    exact ih (by omega) fun j h1 h2 => hpast j (by omega) h2
  | case2 cur hnext hstay =>
    by_contra hne
    have := hpast cur le_rfl (by omega)
    rw [List.getD_eq_getElem _ _ (by omega)] at this
    exact hstay this
  | case3 cur hnext => omega

/-- An item stays in a group that is not the last only below that group's end. -/
theorem lt_of_advance_eq {ends : List Nat} {cur o g : Nat} :
    advance ends cur o = g → g + 1 < ends.length → o < ends.getD g 0 := by
  fun_induction advance ends cur o with
  | case1 cur _ _ ih => exact ih
  | case2 cur hnext hstay =>
    rintro rfl -
    rw [List.getD_eq_getElem _ _ (by omega)]
    omega
  | case3 cur hnext =>
    rintro rfl h
    omega

/-! ## Folding under another group end -/

section Fold

variable {cat : Catalog} {L : LabelTable}

/-- A command joins a fold under any end that lies past it whenever it joins under one. -/
theorem joins_mono {e e' : Nat} {accepts : Category → Bool} {y : Item × Nat}
    (hy : y.2 < e → y.2 < e') (h : joins cat L e accepts y = true) :
    joins cat L e' accepts y = true := by
  obtain ⟨it, o⟩ := y
  cases it with
  | command c =>
    simp only [joins, Bool.and_eq_true, decide_eq_true_eq] at h ⊢
    exact ⟨⟨hy h.1.1, h.1.2⟩, h.2⟩
  | data w => simp [joins] at h

/-- A switch or special process takes its branches: as many commands as join it. -/
theorem snd_gather_of_arms {e : Nat} {c : Command} (rest : List (Item × Nat))
    (h : cat.category c.opcode = .switch ∨ cat.category c.opcode = .special) :
    (gather cat L e c rest).2 = (rest.takeWhile (joins cat L e Category.isArm)).length := by
  unfold gather
  -- no branch leaves the command plain and takes none
  rcases h with h | h <;> simp only [h] <;> split
  · rename_i hnone; simp [List.isEmpty_iff.1 hnone]
  · rfl
  · rename_i hnone; simp [List.isEmpty_iff.1 hnone]
  · rfl

/-- A fold is the same under another group end that lies past the commands it took and admits,
of the item right after them, at most what the first end admitted. -/
theorem gather_congr {e e' : Nat} (c : Command) (rest : List (Item × Nat))
    (htaken : ∀ y ∈ rest.take (gather cat L e c rest).2, y.2 < e')
    (hnext : ∀ y ∈ (rest.drop (gather cat L e c rest).2).head?, y.2 < e' → y.2 < e) :
    gather cat L e' c rest = gather cat L e c rest := by
  -- the branches of a switch or special process, which are what it takes
  have harms : cat.category c.opcode = .switch ∨ cat.category c.opcode = .special →
      rest.takeWhile (joins cat L e' Category.isArm) = rest.takeWhile (joins cat L e Category.isArm) := by
    intro hcat
    rw [snd_gather_of_arms rest hcat] at htaken hnext
    refine takeWhile_eq_of_stop (fun y hy => joins_mono (fun _ => htaken y ?_) (List.mem_takeWhile_imp hy))
      fun y hy h => joins_mono (hnext y hy) h
    rwa [← List.prefix_iff_eq_take.1 (List.takeWhile_prefix _)]
  unfold gather at htaken hnext ⊢
  split
  · -- a switch
    rename_i hcat
    rw [harms (.inl hcat)]
  · -- a special process
    rename_i hcat
    rw [harms (.inr hcat)]
  · -- an entity accessor takes the attribute command right after it, if that joins
    rename_i hcat
    simp only [hcat] at htaken hnext
    split
    · rename_i a o tail
      simp only at htaken hnext ⊢
      by_cases hj : joins cat L e (· == Category.attribute) (Item.command a, o) = true
      · simp only [hj, if_true, List.take_one, List.head?_cons, Option.toList_some,
          List.mem_singleton, forall_eq] at htaken
        rw [if_pos (joins_mono (fun _ => htaken) hj), if_pos hj]
      · simp only [hj, Bool.false_eq_true, if_false, List.drop_zero, List.head?_cons,
          Option.mem_def, Option.some.injEq, forall_eq'] at hnext
        rw [if_neg (fun h' => hj (joins_mono hnext h')), if_neg hj]
    · rfl
  · rfl

end Fold

/-! ## One step of the walk -/

/-- The label a walk puts before the item at `o`, in group `g`, if `o` is a jump target. -/
def labelMark (L : LabelTable) (g o : Nat) : List (Nat × Instruction) :=
  match L.at? o with
  | some l => [(g, .label l)]
  | none => []

/-- The instruction an item opens, given the items after it, and how many of those it takes: a
data word stands alone and a command gathers what joins it. -/
def openWith (cat : Catalog) (L : LabelTable) (e : Nat) : Item → List (Item × Nat) → Instruction × Nat
  | .data w, _ => (.data w, 0)
  | .command c, rest => gather cat L e c rest

theorem labelMark_spec (L : LabelTable) (g o : Nat) :
    ∀ p ∈ labelMark L g o, p.1 = g ∧ p.2.items = [] := by
  unfold labelMark
  split <;> simp [Instruction.items, Instruction.commands]

/-- A step of the walk: the item's label, if any, and the instruction it opens, both in the group
the item reaches, then the walk from that group past what the instruction took. -/
theorem walk_cons (cat : Catalog) (L : LabelTable) (ends : List Nat) (cur o : Nat) (it : Item)
    (rest : List (Item × Nat)) :
    walk cat L ends cur ((it, o) :: rest) =
      labelMark L (advance ends cur o) o ++
        (advance ends cur o, (openWith cat L (ends.getD (advance ends cur o) 0) it rest).1) ::
          walk cat L ends (advance ends cur o)
            (rest.drop (openWith cat L (ends.getD (advance ends cur o) 0) it rest).2) := by
  cases it with
  | data w => rw [walk.eq_2]; rfl
  | command c => rw [walk.eq_3]; rfl

/-- The items an instruction opened by an item stands for: the item and those it took. -/
theorem openWith_items (cat : Catalog) (L : LabelTable) (e : Nat) (it : Item) (rest : List (Item × Nat)) :
    (openWith cat L e it rest).1.items = it :: (rest.take (openWith cat L e it rest).2).map Prod.fst := by
  cases it with
  | data w => simp [openWith, Instruction.items]
  | command c => exact gather_items cat L e c rest

/-- An instruction opened under another group end is the same when that end lies past the items
it took and admits, of the item right after them, at most what the first end admitted. -/
theorem openWith_congr_end {cat : Catalog} {L : LabelTable} {e e' : Nat} (it : Item)
    (rest : List (Item × Nat)) (htaken : ∀ y ∈ rest.take (openWith cat L e it rest).2, y.2 < e')
    (hnext : ∀ y ∈ (rest.drop (openWith cat L e it rest).2).head?, y.2 < e' → y.2 < e) :
    openWith cat L e' it rest = openWith cat L e it rest := by
  cases it with
  | data w => rfl
  | command c => exact gather_congr c rest htaken hnext

/-- Every instruction of a walk lies in the group its first item reaches or a later one. -/
theorem advance_le_of_mem_walk {cat : Catalog} {L : LabelTable} {ends : List Nat} {cur o : Nat}
    {it : Item} {rest : List (Item × Nat)} :
    ∀ p ∈ walk cat L ends cur ((it, o) :: rest), advance ends cur o ≤ p.1 := by
  intro p hp
  rw [walk_cons] at hp
  rcases List.mem_append.1 hp with hp | hp
  · exact ((labelMark_spec L _ o) p hp).1.ge
  · rcases List.mem_cons.1 hp with rfl | hp
    · exact le_rfl
    · exact (walk_out cat L ends _ _).from_cur p hp

/-! ## Offsets of located items -/

section Locate

variable (cat : Catalog)

theorem itemSize_pos (it : Item) : 0 < cat.itemSize it := by
  cases it <;> simp [Catalog.itemSize, Catalog.commandSize]

theorem locate_take (o : Nat) : ∀ (k : Nat) (items : List Item),
    (locate cat o items).take k = locate cat o (items.take k)
  | 0, _ => by simp [locate]
  | _ + 1, [] => rfl
  | k + 1, it :: items => by simp [locate, locate_take _ k items]

/-- The items after the first `k` lie past the first `k`. -/
theorem locate_drop : ∀ (o k : Nat) (items : List Item),
    (locate cat o items).drop k = locate cat (o + cat.itemsSize (items.take k)) (items.drop k)
  | o, 0, items => by simp [Catalog.itemsSize]
  | o, _ + 1, [] => by simp [locate, Catalog.itemsSize]
  | o, k + 1, it :: items => by
    simp [locate, locate_drop _ k items, Catalog.itemsSize, Nat.add_assoc]

/-- Located items start below the end of them all. -/
theorem lt_of_mem_locate : ∀ {o : Nat} {items : List Item} {y : Item × Nat},
    y ∈ locate cat o items → y.2 < o + cat.itemsSize items
  | _, [], _, h => by simp [locate] at h
  | o, it :: items, y, h => by
    have hpos := itemSize_pos cat it
    simp only [locate, List.mem_cons] at h
    rcases h with rfl | h
    · simp only [Catalog.itemsSize]
      omega
    · have := lt_of_mem_locate h
      simp only [Catalog.itemsSize]
      omega

theorem head?_locate (o : Nat) (items : List Item) :
    (locate cat o items).head? = items.head?.map (·, o) := by
  cases items <;> rfl

end Locate

/-! ## Group ends laid out from a walk -/

/-- Where group `j` ends when the groups of the instructions `w`, from offset `o` on, are laid
out one after another: past the items of every instruction of group `j` or before. -/
def cutAt (cat : Catalog) (o : Nat) (w : List (Nat × Instruction)) (j : Nat) : Nat :=
  o + cat.itemsSize ((w.filter fun p => p.1 ≤ j).flatMap (·.2.items))

section Cut

variable {cat : Catalog}

/-- Before the first group of a walk, no group holds anything. -/
theorem cutAt_of_lt {o j : Nat} {w : List (Nat × Instruction)} (h : ∀ p ∈ w, j < p.1) :
    cutAt cat o w j = o := by
  have hnone : (w.filter fun p => p.1 ≤ j) = [] :=
    List.filter_eq_nil_iff.2 fun p hp => by have := h p hp; simp only [decide_eq_true_eq]; omega
  simp [cutAt, hnone, Catalog.itemsSize]

/-- Instructions of a group up to `j`, first of all, move the cut past their items. -/
theorem cutAt_append {o g j : Nat} {head w : List (Nat × Instruction)} (hidx : ∀ p ∈ head, p.1 = g)
    (hj : g ≤ j) :
    cutAt cat o (head ++ w) j = cutAt cat (o + cat.itemsSize (head.flatMap (·.2.items))) w j := by
  have hall : (head.filter fun p => p.1 ≤ j) = head :=
    List.filter_eq_self.2 fun p hp => by rw [hidx p hp]; simpa using hj
  simp only [cutAt, List.filter_append, hall, List.flatMap_append, itemsSize_append, Nat.add_assoc]

end Cut

/-! ## The walk under re-cut group ends -/

section Recut

variable (cat : Catalog) (L : LabelTable)

/-- The items of the instruction an item opens: the item and the items it took. -/
theorem items_of_openWith {e o k : Nat} {it : Item} {items : List Item} {inst : Instruction}
    (h : openWith cat L e it (locate cat (o + cat.itemSize it) items) = (inst, k)) :
    inst.items = it :: items.take k := by
  have := openWith_items cat L e it (locate cat (o + cat.itemSize it) items)
  rw [h] at this
  rw [this, locate_take, map_fst_locate]

/-- A group from the one the first item reaches on is cut past the instruction that item opens
and what the rest of the walk gives it. -/
theorem cutAt_walk_cons {ends : List Nat} {cur o g j k : Nat} {it : Item} {items : List Item}
    {inst : Instruction} (hg : advance ends cur o = g)
    (hfold : openWith cat L (ends.getD g 0) it (locate cat (o + cat.itemSize it) items) = (inst, k))
    (hj : g ≤ j) :
    cutAt cat o (walk cat L ends cur (locate cat o (it :: items))) j =
      cutAt cat (o + cat.itemSize it + cat.itemsSize (items.take k))
        (walk cat L ends g
          (locate cat (o + cat.itemSize it + cat.itemsSize (items.take k)) (items.drop k))) j := by
  have hhead := head_of_mark inst (labelMark_spec L g o)
  rw [locate_cons, walk_cons, hg, hfold, locate_drop, ← List.singleton_append, ← List.append_assoc,
    cutAt_append hhead.1 hj, hhead.2, items_of_openWith cat L hfold]
  simp only [Catalog.itemsSize, Nat.add_assoc]

/-- A walk over located items hands out the same instructions under ends `ends'` that close
every group it reaches, but the last, right past the items that group was given, provided both
lists of ends leave all the items below the last end. -/
theorem walk_recut {ends ends' : List Nat} (hlen : ends'.length = ends.length) :
    ∀ (n cur o : Nat) (items : List Item), items.length ≤ n → cur < ends.length →
      (∀ j, cur ≤ j → j + 1 < ends.length →
        ends'.getD j 0 = cutAt cat o (walk cat L ends cur (locate cat o items)) j) →
      o + cat.itemsSize items ≤ ends.getD (ends.length - 1) 0 →
      o + cat.itemsSize items ≤ ends'.getD (ends.length - 1) 0 →
      walk cat L ends' cur (locate cat o items) = walk cat L ends cur (locate cat o items)
  | _, _, _, [], _, _, _, _, _ => by simp [locate, walk]
  | 0, _, _, _ :: _, hn, _, _, _, _ => absurd hn (by simp)
  | n + 1, cur, o, it :: items, hn, hcur, hcut, hend, hend' => by
    -- the group the item reaches, and the instruction it opens there
    obtain ⟨g, hg⟩ : ∃ g, advance ends cur o = g := ⟨_, rfl⟩
    obtain ⟨⟨inst, k⟩, hfold⟩ : ∃ p, openWith cat L (ends.getD g 0) it
        (locate cat (o + cat.itemSize it) items) = p := ⟨_, rfl⟩
    have hgN : g < ends.length := hg ▸ advance_lt o hcur
    have hcg : cur ≤ g := hg ▸ le_advance ends cur o
    have hdrop : (locate cat (o + cat.itemSize it) items).drop k =
        locate cat (o + cat.itemSize it + cat.itemsSize (items.take k)) (items.drop k) :=
      locate_drop cat _ k items
    set c := o + cat.itemSize it + cat.itemsSize (items.take k) with hc
    set wr := walk cat L ends g (locate cat c (items.drop k)) with hwr
    have hsplit : cat.itemsSize items = cat.itemsSize (items.take k) + cat.itemsSize (items.drop k) := by
      rw [← itemsSize_append, List.take_append_drop]
    have hall : cat.itemsSize (it :: items) = cat.itemSize it + cat.itemsSize items := rfl
    have hstep : ∀ j, g ≤ j →
        cutAt cat o (walk cat L ends cur (locate cat o (it :: items))) j = cutAt cat c wr j :=
      fun j hj => cutAt_walk_cons cat L hg hfold hj
    have hbefore : ∀ j, cur ≤ j → j < g → ends'.getD j 0 ≤ o := by
      intro j hj1 hj2
      rw [hcut j hj1 (by omega), cutAt_of_lt fun p hp => ?_]
      have := advance_le_of_mem_walk p (by rwa [locate_cons] at hp)
      omega
    have hpos := itemSize_pos cat it
    -- the item reaches the same group under the new ends
    have hg' : advance ends' cur o = g := by
      refine advance_eq_of_bounds hcg (hlen ▸ hgN) hbefore fun hgn => ?_
      rw [hcut g hcg (by omega), hstep g le_rfl]
      unfold cutAt
      omega
    -- and opens the same instruction there
    have hfold' : openWith cat L (ends'.getD g 0) it (locate cat (o + cat.itemSize it) items) = (inst, k) := by
      refine (openWith_congr_end it _ (fun y hy => ?_) fun y hy hlt => ?_).trans hfold
      · -- the items it took lie below the new end
        simp only [hfold] at hy
        rw [locate_take] at hy
        have hy := lt_of_mem_locate cat hy
        by_cases hlast : g + 1 < ends.length
        · rw [hcut g hcg hlast, hstep g le_rfl]
          unfold cutAt
          omega
        · have : g = ends.length - 1 := by omega
          rw [this]
          omega
      · -- the item after them, if the new end admits it, lies below the old end
        simp only [hfold] at hy
        rw [hdrop, head?_locate, Option.mem_def, Option.map_eq_some_iff] at hy
        obtain ⟨it', hit', rfl⟩ := hy
        obtain ⟨tail, htail⟩ := List.head?_eq_some_iff.1 hit'
        have hpos' := itemSize_pos cat it'
        have hmore : cat.itemSize it' ≤ cat.itemsSize (items.drop k) := by
          rw [htail]
          simp only [Catalog.itemsSize]
          omega
        by_cases hlast : g + 1 < ends.length
        · by_cases hstay : advance ends g c = g
          · exact lt_of_advance_eq hstay hlast
          · -- the item opens a later group, so the new end is the item's own offset
            have hlater : ∀ p ∈ wr, g < p.1 := fun p hp => by
              rw [hwr, htail, locate_cons] at hp
              have := advance_le_of_mem_walk p hp
              have := le_advance ends g c
              omega
            rw [hcut g hcg hlast, hstep g le_rfl, cutAt_of_lt hlater] at hlt
            exact absurd hlt (lt_irrefl _)
        · have : g = ends.length - 1 := by omega
          simp only at hlt ⊢
          rw [this]
          omega
    -- the rest of the walk, from the same group, by induction
    have ih := walk_recut hlen n g c (items.drop k) (by simp at hn ⊢; omega) hgN
      (fun j hj hjn => by rw [hcut j (by omega) hjn, hstep j hj]) (by omega) (by omega)
    rw [locate_cons, walk_cons, walk_cons, hg', hg, hfold', hfold, hdrop, ih]

end Recut

/-! ## Labels enter a walk only through the offsets they mark -/

section Labels

variable (cat : Catalog) {L L' : LabelTable}

theorem joins_congr_at (h : L'.at? = L.at?) : joins cat L' = joins cat L := by
  funext e accepts y
  obtain ⟨it, o⟩ := y
  cases it <;> simp [joins, h]

theorem openWith_congr_at (h : L'.at? = L.at?) : openWith cat L' = openWith cat L := by
  funext e it rest
  cases it with
  | data w => rfl
  | command c =>
    simp only [openWith]
    unfold gather
    rw [joins_congr_at cat h]

theorem labelMark_congr_at (h : L'.at? = L.at?) : labelMark L' = labelMark L := by
  funext g o
  simp [labelMark, h]

/-- Two tables that mark the same offsets give the same walk. -/
theorem walk_congr_at (h : L'.at? = L.at?) (ends : List Nat) :
    ∀ (n cur : Nat) (xs : List (Item × Nat)), xs.length ≤ n →
      walk cat L' ends cur xs = walk cat L ends cur xs
  | _, _, [], _ => by simp [walk]
  | 0, _, _ :: _, hn => absurd hn (by simp)
  | n + 1, cur, (it, o) :: rest, hn => by
    rw [walk_cons, walk_cons, labelMark_congr_at h, openWith_congr_at cat h,
      walk_congr_at h ends n _ _ (by simp at hn ⊢; omega)]

end Labels

/-! ## Arranging, as a walk and its split into groups -/

/-- The instructions `Code.arrange` hands out, each with its group index: the walk over the
code, then the label at the end of the code. -/
def Code.placed (code : Code) (cat : Catalog) (entries : List GroupEntry) (start dataLen : Nat) :
    List (Nat × Instruction) :=
  walk cat code.labels (groupEnds entries dataLen) 0 (locate cat start code.items) ++
    labelMark code.labels (entries.length - 1) (endOffset cat start code.items)

/-- One group per entry, with the entry's words and the instructions of its index. -/
def groupsOf (entries : List GroupEntry) (placed : List (Nat × Instruction)) : List Group :=
  entries.zipIdx.map fun a => ⟨a.1.kind, a.1.unk2, (placed.filter (·.1 == a.2)).map (·.2)⟩

/-- The targets of a table that are none of the labels `placed`, by index, each with its first
word. -/
def LabelTable.unplaced (t : LabelTable) (placed : List LabelId) : List (LabelId × UInt16) :=
  ((List.range t.targets.length).zip t.targets).filterMap fun p =>
    if placed.contains ⟨p.1.toUInt16⟩ then none else some (⟨p.1.toUInt16⟩, p.2.2)

/-- With group entries, arranging is the split of the placed instructions by group, and the raw
targets are the labels none of them holds. -/
theorem Code.arrange_eq (code : Code) (cat : Catalog) {entries : List GroupEntry} (h : entries ≠ [])
    (start dataLen : Nat) :
    code.arrange cat entries start dataLen =
      (groupsOf entries (code.placed cat entries start dataLen),
        code.labels.unplaced (labelsOf ((code.placed cat entries start dataLen).map (·.2)))) := by
  simp only [Code.arrange, List.isEmpty_eq_false_iff.2 h, Bool.false_eq_true, if_false]
  rfl

theorem groupsOf_congr {entries entries' : List GroupEntry}
    (h : entries'.map (fun e => (e.kind, e.unk2)) = entries.map (fun e => (e.kind, e.unk2)))
    (placed : List (Nat × Instruction)) : groupsOf entries' placed = groupsOf entries placed := by
  have hzip : ∀ es : List GroupEntry, groupsOf es placed =
      ((es.map fun e => (e.kind, e.unk2)).zipIdx).map
        fun a => ⟨a.1.1, a.1.2, (placed.filter (·.1 == a.2)).map (·.2)⟩ := by
    intro es
    simp [groupsOf, List.zipIdx_map]
  rw [hzip, hzip, h]

/-- A walk's labels add nothing to where its groups end. -/
theorem cutAt_append_labelMark (cat : Catalog) (L : LabelTable) (o g e : Nat)
    (w : List (Nat × Instruction)) (j : Nat) :
    cutAt cat o (w ++ labelMark L g e) j = cutAt cat o w j := by
  have hnone : ((labelMark L g e).filter fun p => p.1 ≤ j).flatMap (·.2.items) = [] :=
    List.flatMap_eq_nil_iff.2 fun p hp => (labelMark_spec L g e p (List.mem_of_mem_filter hp)).2
  simp only [cutAt, List.filter_append, List.flatMap_append, hnone, List.append_nil]

theorem getD_groupEnds_last {entries : List GroupEntry} (h : entries ≠ []) (dataLen : Nat) :
    (groupEnds entries dataLen).getD (entries.length - 1) 0 = dataLen := by
  have hlen := length_groupEnds dataLen h
  have hpos := List.length_pos_iff.2 h
  simp only [groupEnds] at hlen ⊢
  rw [List.getD_eq_getElem _ _ (by omega), List.getElem_append_right (by simp)]
  simp

/-- Arranging a code again, over entries that end each group right past what it was given the
first time, places the same instructions, whatever first words its table has. -/
theorem placed_recut (cat : Catalog) {code code' : Code} {entries entries' : List GroupEntry}
    {start dataLen dataLen' : Nat} (hne : entries ≠ []) (hlen : entries'.length = entries.length)
    (hitems : code'.items = code.items) (hat : code'.labels.at? = code.labels.at?)
    (hcut : ∀ j, j + 1 < entries.length →
      (groupEnds entries' dataLen').getD j 0 = cutAt cat start (code.placed cat entries start dataLen) j)
    (hend : endOffset cat start code.items ≤ dataLen) (hend' : endOffset cat start code.items ≤ dataLen') :
    code'.placed cat entries' start dataLen' = code.placed cat entries start dataLen := by
  have hne' : entries' ≠ [] := fun h => hne (List.length_eq_zero_iff.1 (hlen ▸ h ▸ rfl))
  have hN := length_groupEnds dataLen hne
  have hN' := length_groupEnds dataLen' hne'
  unfold Code.placed
  rw [hitems, labelMark_congr_at hat, hlen,
    walk_congr_at cat hat _ _ _ _ le_rfl]
  congr 1
  refine walk_recut cat code.labels (by rw [hN, hN', hlen]) _ 0 start code.items le_rfl
    (by rw [hN]; exact List.length_pos_iff.2 hne) (fun j _ hj => ?_) ?_ ?_
  · rw [hN] at hj
    rw [hcut j hj, Code.placed, cutAt_append_labelMark]
  · rw [hN, getD_groupEnds_last hne]
    exact hend
  · rw [hN, ← hlen, getD_groupEnds_last hne']
    exact hend'

/-- Raw targets are the same under other first words that keep those of the unplaced labels. -/
theorem unplaced_mapWords (t : LabelTable) (f : UInt16 → UInt16) (placed : List LabelId)
    (h : ∀ i (hi : i < t.targets.length), placed.contains ⟨i.toUInt16⟩ = false →
      f t.targets[i].2 = t.targets[i].2) :
    (t.mapWords f).unplaced placed = t.unplaced placed := by
  unfold LabelTable.unplaced LabelTable.mapWords
  simp only [List.length_map]
  rw [List.zip_map_right, List.filterMap_map]
  apply List.filterMap_congr
  -- the pair at index `i` holds target `i`
  intro p hp
  obtain ⟨i, hi, rfl⟩ := List.getElem_of_mem hp
  have hit : i < t.targets.length := by simp at hi; omega
  simp only [List.getElem_zip, List.getElem_range, Function.comp, Prod.map, id]
  split
  · rfl
  · rename_i hnot
    simp [h i hit (by simpa using hnot)]

/-! ## What the groups of a walk hold -/

section Split

variable (cat : Catalog)

/-- The placed instructions come group by group, each group below the number of entries. -/
theorem placed_sorted (code : Code) {entries : List GroupEntry} (hne : entries ≠ []) (start dataLen : Nat) :
    (code.placed cat entries start dataLen).Pairwise (·.1 ≤ ·.1) ∧
      ∀ p ∈ code.placed cat entries start dataLen, p.1 < entries.length := by
  have hN := length_groupEnds dataLen hne
  have hpos := List.length_pos_iff.2 hne
  have hw := walk_out cat code.labels (groupEnds entries dataLen) 0 (locate cat start code.items)
  have hbelow : ∀ p ∈ walk cat code.labels (groupEnds entries dataLen) 0 (locate cat start code.items),
      p.1 < entries.length := fun p hp => hN ▸ hw.below (by omega) p hp
  have hlast := labelMark_spec code.labels (entries.length - 1) (endOffset cat start code.items)
  refine ⟨List.pairwise_append.2 ⟨hw.sorted, ?_, fun a ha b hb => ?_⟩, fun p hp => ?_⟩
  · exact List.Pairwise.imp_of_mem (fun ha hb _ => by rw [(hlast _ ha).1, (hlast _ hb).1])
      (List.pairwise_of_forall fun _ _ => trivial)
  · have := hbelow a ha
    rw [(hlast b hb).1]
    omega
  · rcases List.mem_append.1 hp with hp | hp
    · exact hbelow p hp
    · rw [(hlast p hp).1]
      omega

/-- The placed instructions stand for the code's items. -/
theorem placed_items (code : Code) (entries : List GroupEntry) (start dataLen : Nat) :
    (code.placed cat entries start dataLen).flatMap (·.2.items) = code.items := by
  have hw := walk_out cat code.labels (groupEnds entries dataLen) 0 (locate cat start code.items)
  have hnone : (labelMark code.labels (entries.length - 1) (endOffset cat start code.items)).flatMap
      (·.2.items) = [] :=
    List.flatMap_eq_nil_iff.2 fun p hp => (labelMark_spec _ _ _ p hp).2
  rw [Code.placed, List.flatMap_append, hw.items, hnone, List.append_nil, map_fst_locate]

/-- The groups of instructions sorted by index, one per entry, hold them all in order. -/
theorem instructions_groupsOf (entries : List GroupEntry) (placed : List (Nat × Instruction))
    (hs : placed.Pairwise (·.1 ≤ ·.1)) (hb : ∀ p ∈ placed, p.1 < entries.length) :
    (groupsOf entries placed).flatMap (·.instructions) = placed.map (·.2) := by
  have hsplit := flatMap_range'_filter entries.length 0 placed hs
    fun p hp => ⟨Nat.zero_le _, by simpa using hb p hp⟩
  calc (groupsOf entries placed).flatMap (·.instructions)
      _ = (List.range' 0 entries.length).flatMap (fun i => (placed.filter (·.1 == i)).map (·.2)) := by
        rw [groupsOf, List.flatMap_map, ← List.zipIdx_map_snd 0 entries, List.flatMap_map]
      _ = ((List.range' 0 entries.length).flatMap (fun i => placed.filter (·.1 == i))).map (·.2) := by
        rw [List.map_flatMap]
      _ = placed.map (·.2) := by rw [hsplit]

theorem take_zipIdx {α : Type} : ∀ (l : List α) (n k : Nat), (l.zipIdx k).take n = (l.take n).zipIdx k
  | [], _, _ => by simp
  | _ :: _, 0, _ => by simp
  | a :: l, n + 1, k => by simp [List.zipIdx_cons, take_zipIdx l n (k + 1)]

/-- The first `j + 1` groups hold the items of the instructions of index `j` or less. -/
theorem items_take_groupsOf (entries : List GroupEntry) (placed : List (Nat × Instruction))
    (hs : placed.Pairwise (·.1 ≤ ·.1)) (hb : ∀ p ∈ placed, p.1 < entries.length) (j : Nat) :
    ((groupsOf entries placed).take (j + 1)).flatMap Group.items =
      (placed.filter fun p => p.1 ≤ j).flatMap (·.2.items) := by
  -- the groups of the first `j + 1` entries take only instructions of index `j` or less
  have hsame : (groupsOf entries placed).take (j + 1) =
      groupsOf (entries.take (j + 1)) (placed.filter fun p => p.1 ≤ j) := by
    unfold groupsOf
    rw [← List.map_take, take_zipIdx]
    apply List.map_congr_left
    intro a ha
    have hlt := (List.mem_zipIdx ha).2.1
    simp only [List.length_take, Nat.zero_add] at hlt
    rw [List.filter_filter]
    congr 2
    apply List.filter_congr
    intro p _
    by_cases h : p.1 = a.2 <;> simp [h]; omega
  rw [hsame, groupsOf, List.flatMap_map]
  refine flatMap_items_groups _ _ (hs.filter _) fun p hp => ?_
  simp only [List.mem_filter, decide_eq_true_eq] at hp
  simp only [List.length_take]
  have := hb p hp.1
  omega

end Split

end DungeonFormats.Script
