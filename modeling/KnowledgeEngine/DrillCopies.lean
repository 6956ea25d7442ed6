import KnowledgeEngine.DrillMemory

/-!
What drilling does to memory. Each part of it returns, keeps the memory there was and leaves
behind it what reads as the drilled part; from the parts follows that the input spec reads as it
did and the returned record as the drilled spec.
-/

namespace KnowledgeEngine.DrillCopies

open CoreTypes VizqlShelves FlatMemory DrillMemory List

open Vizql hiding drillShelf drillSort drillEncodings Drill

variable {lo : ℕ} {h : List Cell} {f : FieldRef → FieldRef}

section Depth

/-- At most so many nodes nest. -/
def Within : ℕ → Shelf → Prop
  | 0, s => s.isNull = true
  | _ + 1, .null => True
  | _ + 1, .field _ => True
  | n + 1, .node _ args => ∀ arg ∈ args, Within n arg

theorem argsValid_mem {m : FieldMap} {depth : ℕ} : ∀ {args : List Shelf}, ArgsValid m depth args →
    ∀ arg ∈ args, ShelfValid m depth arg
  | arg :: rest, ⟨_, harg, hrest⟩, other, hmem => by
    rcases mem_cons.mp hmem with rfl | hmem
    · exact harg
    · exact argsValid_mem hrest other hmem

/-- A valid shelf nests no deeper than is left at its depth. -/
theorem within_of_valid {m : FieldMap} (n : ℕ) : ∀ (depth : ℕ) (s : Shelf),
    ShelfValid m depth s → MaxShelfDepth < depth + n → Within n s := by
  induction n with
  | zero =>
    intro depth s hvalid hdepth
    cases s with
    | null => rfl
    | field ref => exact absurd hvalid.1 (by omega)
    | node op args => exact absurd hvalid.1 (by omega)
  | succ n ih =>
    intro depth s hvalid hdepth
    cases s with
    | null => trivial
    | field ref => trivial
    | node op args =>
      obtain ⟨-, -, -, hargs⟩ := hvalid
      exact fun arg harg => ih (depth + 1) arg (argsValid_mem hargs arg harg) (by omega)

end Depth

/-- A run returns, only adds to memory, and what it returns is as required. -/
def Copies {β : Type} (R : List Cell → β → Prop) (h : List Cell)
    (run : Option (List Cell × β)) : Prop :=
  ∃ more out, run = some (h ++ more, out) ∧ R (h ++ more) out

theorem Copies.pure {β : Type} {R : List Cell → β → Prop} {out : β} (hout : R h out) :
    Copies R h (some (h, out)) :=
  ⟨[], out, by rw [append_nil], by rwa [append_nil]⟩

theorem Copies.bind {β γ : Type} {R : List Cell → β → Prop} {S : List Cell → γ → Prop}
    {run : Option (List Cell × β)} {next : List Cell × β → Option (List Cell × γ)}
    (hrun : Copies R h run)
    (hnext : ∀ g out, h <+: g → R g out → Copies S g (next (g, out))) :
    Copies S h (run.bind next) := by
  obtain ⟨more, out, rfl, hout⟩ := hrun
  obtain ⟨more', out', hrun', hout'⟩ := hnext _ out (prefix_append h more) hout
  rw [append_assoc] at hrun' hout'
  exact ⟨more ++ more', out', hrun', hout'⟩

section Shelves

theorem drillArgs_eq_map (args : List Shelf) :
    drillArgs f args = args.map (Vizql.drillShelf f) := by
  induction args with
  | nil => rfl
  | cons arg rest ih => rw [drillArgs, ih, map_cons]

theorem leaf_copies {p q : ℕ} {op : AlgebraOp} {slice : Slice} {ref : FieldRef} {fuel : ℕ}
    (hexpr : h[p]? = some (.expr ⟨some q, op, slice⟩)) (href : h[q]? = some (.ref ref)) :
    Copies (fun g e => ReadsShelf h.length g e (.field (f ref))) h
      (drillShelf f (fuel + 1) h (some p)) := by
  refine ⟨[.ref (f ref), .expr ⟨some h.length, .other "", ⟨none, 0⟩⟩], some (h.length + 1), ?_,
    h.length + 1, h.length, .other "", ⟨none, 0⟩, rfl, Nat.le_succ _, Nat.le_refl _, ?_, ?_⟩
  · simp [drillShelf, hexpr, href, alloc]
  · simp
  · simp

theorem node_copies {p : ℕ} {op : AlgebraOp} {slice : Slice} {args : List Shelf} {fuel : ℕ}
    (hargs : ∀ arg ∈ args, ∀ h e, ReadsShelf lo h e arg →
      Copies (fun g e => ReadsShelf h.length g e (Vizql.drillShelf f arg)) h
        (drillShelf f fuel h e))
    (hexpr : h[p]? = some (.expr ⟨none, op, slice⟩)) (hlen : slice.len = args.length)
    (hreads : ReadsArgs lo h slice 0 args) :
    Copies (fun g e => ReadsShelf h.length g e (.node op (drillArgs f args))) h
      (drillShelf f (fuel + 1) h (some p)) := by
  obtain ⟨xs, extra, hfill, hxs, hresults⟩ : ∃ xs extra,
      fill (drillArg (drillShelf f fuel) slice) h.length args.length 0
          (h ++ List.replicate args.length (.arg none)) = some (h ++ xs ++ extra) ∧
        xs.length = args.length ∧
      ∀ (j : ℕ) x, xs[j]? = some x → ∃ e arg, x = Cell.arg e ∧ args[j]? = some arg ∧
        ReadsShelf (h.length + args.length) (h ++ xs ++ extra) e (Vizql.drillShelf f arg) := by
    refine fill_new (R := fun j x g => ∃ e arg, x = Cell.arg e ∧ args[j]? = some arg ∧
      ReadsShelf (h.length + args.length) g e (Vizql.drillShelf f arg)) ?_ ?_ _
    · rintro j x g g' ⟨e, arg, rfl, harg, hcopy⟩ hkeeps
      exact ⟨e, arg, rfl, harg, readsShelf_keeps (Nat.le_refl _) hkeeps _ hcopy⟩
    · intro j g hj hkeeps hlong
      have harg : args[j]? = some (args.get ⟨j, hj⟩) := List.getElem?_eq_getElem _
      obtain ⟨q, e, hbase, -, hcell, hread⟩ := readsArgs_iff.mp hreads j _ harg
      have hload : loadAt g slice j = some (.arg e) := by
        rw [Nat.zero_add] at hcell
        exact loadAt_eq_some.mpr ⟨q, hbase, getElem?_of_initial hkeeps hcell⟩
      obtain ⟨more, out, hrun, hcopy⟩ := hargs _ (mem_of_getElem? harg) g e
        (readsShelf_keeps (Nat.le_refl _) (fun _ _ _ hx => getElem?_of_initial hkeeps hx) _ hread)
      exact ⟨more, .arg out, by simp [drillArg, hload, hrun], out, _, rfl, harg,
        readsShelf_keeps hlong (fun _ _ _ hx => hx) _ hcopy⟩
  refine ⟨xs ++ extra ++ [.expr ⟨none, op, ⟨some h.length, args.length⟩⟩],
    some (h ++ xs ++ extra).length, ?_, _, ⟨some h.length, args.length⟩, rfl, ?_, ?_, ?_, ?_⟩
  · simp [drillShelf, hexpr, alloc, hlen, hfill]
  · simp
  · simp
  · simp [drillArgs_eq_map]
  · rw [readsArgs_iff, drillArgs_eq_map]
    intro j copy hcopy
    rw [List.getElem?_map, Option.map_eq_some_iff] at hcopy
    obtain ⟨arg, harg, rfl⟩ := hcopy
    have hlt := (List.getElem?_eq_some_iff.mp harg).1
    obtain ⟨e, arg', hx, harg', hread⟩ := hresults j _ (List.getElem?_eq_getElem (hxs ▸ hlt))
    cases harg.symm.trans harg'
    refine ⟨h.length, e, rfl, Nat.le_refl _, ?_, readsShelf_keeps (Nat.le_add_right _ _)
      (fun a x _ hx => ?_) _ hread⟩
    · rw [Nat.zero_add, List.getElem?_append_right (Nat.le_add_right _ _), Nat.add_sub_cancel_left,
        append_assoc, List.getElem?_append_left (hxs ▸ hlt),
        List.getElem?_eq_getElem (hxs ▸ hlt), hx]
    · rw [← append_assoc, ← append_assoc]
      exact getElem?_of_initial (prefix_append _ _) hx

theorem drillShelf_copies (fuel : ℕ) : ∀ (s : Shelf) (h : List Cell) (e : Option ℕ),
    Within fuel s → ReadsShelf lo h e s →
      Copies (fun g e => ReadsShelf h.length g e (Vizql.drillShelf f s)) h
        (drillShelf f fuel h e) := by
  have hnull : ∀ fuel (h : List Cell) e, ReadsShelf lo h e .null →
      Copies (fun g e => ReadsShelf h.length g e .null) h (drillShelf f fuel h e) := by
    rintro fuel h _ rfl
    exact ⟨[], none, by cases fuel <;> simp [drillShelf], rfl⟩
  induction fuel with
  | zero =>
    intro s h e hwithin hreads
    cases s with
    | null => exact hnull 0 h e hreads
    | field ref => cases hwithin
    | node op args => cases hwithin
  | succ fuel ih =>
    intro s h e hwithin hreads
    cases s with
    | null => exact hnull (fuel + 1) h e hreads
    | field ref =>
      obtain ⟨p, q, op, slice, rfl, -, -, hexpr, href⟩ := hreads
      exact leaf_copies hexpr href
    | node op args =>
      obtain ⟨p, slice, rfl, -, hexpr, hlen, hargs⟩ := hreads
      exact node_copies (fun arg harg h e => ih arg h e (hwithin arg harg)) hexpr hlen hargs

end Shelves

section Records

theorem drillDetail_copies {detail : Slice} {refs : List FieldRef}
    (hreads : Spans h detail (refs.map .ref)) :
    Copies (fun g out => Spans g out ((refs.map f).map .ref)) h (drillDetail f h detail) := by
  have hlen : detail.len = refs.length := hreads.1.trans (length_map _)
  obtain ⟨xs, extra, hfill, hxs, hresults⟩ : ∃ xs extra,
      fill (drillRef f detail) h.length refs.length 0
          (h ++ List.replicate refs.length (.ref ⟨"", .none⟩)) = some (h ++ xs ++ extra) ∧
        xs.length = refs.length ∧
      ∀ (j : ℕ) x, xs[j]? = some x → ((refs.map f).map Cell.ref)[j]? = some x := by
    refine fill_new (R := fun j x _ => ((refs.map f).map Cell.ref)[j]? = some x)
      (fun _ _ _ _ hx _ => hx) (fun j g hj hkeeps _ => ?_) _
    have hload := loadAt_of_initial hkeeps (hreads.2 j (.ref (refs.get ⟨j, hj⟩)) (by simp [hj]))
    exact ⟨[], .ref (f (refs.get ⟨j, hj⟩)), by simp [drillRef, hload], by simp [hj]⟩
  obtain rfl : xs = (refs.map f).map Cell.ref := by
    refine ext_getElem (by simp [hxs]) fun j hj hj' => ?_
    have hx := hresults j _ (List.getElem?_eq_getElem hj)
    rw [List.getElem?_eq_getElem hj'] at hx
    exact (Option.some.inj hx).symm
  refine ⟨(refs.map f).map Cell.ref ++ extra,
    if detail.base = none then ⟨none, 0⟩ else ⟨some h.length, refs.length⟩, ?_, ?_⟩
  · simp [drillDetail, hlen, alloc, hfill]
  split
  · next hnil =>
    rw [map_eq_nil_iff.mp (hreads.eq_nil hnil)]
    exact ⟨rfl, nofun⟩
  · have hspans := spans_new h ((refs.map f).map Cell.ref) extra
    rwa [append_assoc, length_map, length_map] at hspans

/-- The clone is changed cell by cell, behind the memory there was. -/
theorem renameSort_clone (field child : String) (h : List Cell) (rest done : List OrderField) :
    renameSort field child h.length rest.length done.length
        (h ++ (done ++ rest).map .order) =
      some (h ++ (done ++ rest.map (Vizql.drillSort field child)).map .order) := by
  induction rest generalizing done with
  | nil => simp [renameSort]
  | cons o rest ih =>
    have hload : (h ++ (done ++ o :: rest).map Cell.order)[h.length + done.length]? =
        some (.order o) := by simp
    have hnext : renameSort field child h.length rest.length (done.length + 1)
        (h ++ (done ++ Vizql.drillSort field child o :: rest).map .order) =
        some (h ++ (done ++ (o :: rest).map (Vizql.drillSort field child)).map .order) := by
      simpa using ih (done ++ [Vizql.drillSort field child o])
    by_cases hfield : o.Field = field
    · have hstore : store (h ++ (done ++ o :: rest).map Cell.order) (h.length + done.length)
          (.order { o with Field := child }) =
          some (h ++ (done ++ Vizql.drillSort field child o :: rest).map .order) := by
        have hset := set_next (h := h) (done.map Cell.order) (rest.map .order) (.order o)
          (.order { o with Field := child })
        simp_all [store, Vizql.drillSort]
      rw [length_cons, renameSort, hload]
      simpa only [hfield, if_pos, hstore, Option.bind_eq_bind, Option.bind_some] using hnext
    · have hkept : Vizql.drillSort field child o = o := if_neg hfield
      rw [hkept] at hnext
      rw [length_cons, renameSort, hload]
      simpa only [if_neg hfield] using hnext

theorem drillSort_copies (field child : String) {sort : Slice} {orders : List OrderField}
    (hreads : Spans h sort (orders.map .order)) :
    Copies (fun g out => Spans g out ((orders.map (Vizql.drillSort field child)).map .order)) h
      (drillSort field child h sort) := by
  by_cases hnil : sort.base = none
  · have hempty := map_eq_nil_iff.mp (hreads.eq_nil hnil)
    refine ⟨[], sort, by rw [append_nil]; exact if_pos hnil, ?_⟩
    rw [hempty] at hreads ⊢
    rwa [append_nil]
  · have hlen : sort.len = orders.length := hreads.1.trans (length_map _)
    have hrename := renameSort_clone field child h orders []
    refine ⟨(orders.map (Vizql.drillSort field child)).map .order,
      ⟨some h.length, orders.length⟩, ?_, ?_⟩
    · simp only [nil_append, length_nil] at hrename
      simp [drillSort, hnil, hreads.loadSlice, alloc, hlen, hrename]
    · have hspans := spans_new h ((orders.map (Vizql.drillSort field child)).map Cell.order) []
      rwa [append_nil, length_map, length_map] at hspans

theorem drillSlot_copies {slot : Option ℕ} {ref : Option FieldRef} (hreads : ReadsSlot h slot ref) :
    Copies (fun g out => ReadsSlot g out (ref.map f)) h (drillSlot f h slot) := by
  cases ref with
  | none =>
    cases hreads
    exact ⟨[], none, by rw [append_nil]; rfl, rfl⟩
  | some ref =>
    obtain ⟨p, rfl, hload⟩ := hreads
    exact ⟨[.ref (f ref)], some h.length, by simp [drillSlot, hload, alloc], _, rfl, by simp⟩

theorem drillEncodings_copies {enc : EncodingPointers} {e : Encodings}
    (hreads : ReadsEncodings h enc e) :
    Copies (fun g out => ReadsEncodings g out (Vizql.drillEncodings f e)) h
      (drillEncodings f h enc) := by
  refine (drillSlot_copies hreads.color).bind fun g₁ color h₁ hcolor => ?_
  have hreads₁ := readsEncodings_of_initial h₁ hreads
  refine (drillSlot_copies hreads₁.size).bind fun g₂ size h₂ hsize => ?_
  have hreads₂ := readsEncodings_of_initial h₂ hreads₁
  refine (drillSlot_copies hreads₂.shape).bind fun g₃ shape h₃ hshape => ?_
  have hreads₃ := readsEncodings_of_initial h₃ hreads₂
  refine (drillSlot_copies hreads₃.label).bind fun g₄ label h₄ hlabel => ?_
  exact .pure ⟨readsSlot_of_initial (h₂.trans (h₃.trans h₄)) hcolor,
    readsSlot_of_initial (h₃.trans h₄) hsize, readsSlot_of_initial h₄ hshape, hlabel⟩

/-- Drilling a record returns the drilled spec and only adds to memory. -/
theorem drillRecord_copies {fuel : ℕ} {record : SpecRecord} {spec : VizSpec} {field child : String}
    (hreads : Reads h record spec) (hrows : Within fuel spec.Rows)
    (hcolumns : Within fuel spec.Columns) :
    Copies (fun g out => Reads g out (drilled field child spec)) h
      (drillRecord fuel h record field child) := by
  refine (drillShelf_copies fuel _ h _ hrows hreads.rows).bind fun g₁ rows h₁ hrowsOut => ?_
  have hreads₁ := reads_of_initial h₁ hreads
  refine (drillShelf_copies fuel _ g₁ _ hcolumns hreads₁.columns).bind
    fun g₂ columns h₂ hcolumnsOut => ?_
  have hreads₂ := reads_of_initial h₂ hreads₁
  refine (drillDetail_copies hreads₂.detail).bind fun g₃ detail h₃ hdetail => ?_
  have hreads₃ := reads_of_initial h₃ hreads₂
  refine (drillSort_copies field child hreads₃.sort).bind fun g₄ sort h₄ hsort => ?_
  have hreads₄ := reads_of_initial h₄ hreads₃
  refine (drillEncodings_copies hreads₄.encodings).bind fun g₅ encodings h₅ hencodings => ?_
  exact .pure { hreads with
    rows := readsShelf_of_initial (h₂.trans (h₃.trans (h₄.trans h₅))) hrowsOut
    columns := readsShelf_of_initial (h₃.trans (h₄.trans h₅)) hcolumnsOut
    encodings := hencodings
    detail := hdetail.of_initial (h₄.trans h₅)
    sort := hsort.of_initial h₅ }

end Records

end KnowledgeEngine.DrillCopies
