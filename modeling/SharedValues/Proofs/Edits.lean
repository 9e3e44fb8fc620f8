import SharedValues.Edit
import SharedValues.Proofs.Cells
import SharedValues.Proofs.Reading

/-!
Edits turn a value into one of the same type and what they take out; an abandoned edit leaves the
value as it was. An edit deep inside a value is an edit of the whole, because everything around it
stays where it is.
-/
namespace SharedValues

open Edit (Change)

/-- The edit turns what is given into a result for the same place and what it takes out. -/
def EditsTo {α : Type} (given : Multiset Piece) (pre : Store → Prop) (act : Run (Change α))
    (g : α → Multiset Piece) (R : α → Store → Prop) : Prop :=
  Turns .write given pre act (fun c => g c.result + Value.piecesOf c.removed)
    (fun c s => R c.result s) given

/-- The edit of a value that stands at a place. -/
def Edits (p : Place) (v : Value) (act : Run (Change Value)) : Prop :=
  EditsTo v.pieces (fun s => Fits s p v) act Value.pieces (fun v s => Fits s p v)

/-- The edit of values that stand at places side by side. -/
def EditsAll (ps : List Place) (vs : List Value) (act : Run (Change (List Value))) : Prop :=
  EditsTo (Value.piecesOf vs) (fun s => FitAll s ps vs) act Value.piecesOf (fun vs s => FitAll s ps vs)

section rules

variable {α β : Type} {given : Multiset Piece} {pre : Store → Prop} {act : Run (Change α)}
  {g : α → Multiset Piece} {R : α → Store → Prop}

theorem EditsTo.refuse : EditsTo given pre (Run.refuse : Run (Change α)) g R := Turns.refuse rfl

/-- An edit of a part is an edit of the whole: the rest stays in hand and keeps its type. -/
theorem EditsTo.within (h : EditsTo given pre act g R) (r : Multiset Piece) {F : Store → Prop}
    (hF : Stable F) {f : α → β} {k : β → Multiset Piece} {K : β → Store → Prop}
    (hg : ∀ a, k (f a) = g a + r) (hR : ∀ a s, R a s → F s → K (f a) s) :
    EditsTo (given + r) (fun s => pre s ∧ F s)
      (do let c ← act
          pure (c.map f)) k K := by
  refine ((Turns.frame h r).keep hF).bind fun c => Turns.pure ?_ fun s hs => hR c.result s hs.1 hs.2
  show g c.result + Value.piecesOf c.removed + r = k (f c.result) + Value.piecesOf c.removed
  rw [hg]
  abel

theorem EditsTo.map (h : EditsTo given pre act g R) {f : α → β} {k : β → Multiset Piece}
    {K : β → Store → Prop} (hg : ∀ a, k (f a) = g a) (hR : ∀ a s, R a s → K (f a) s) :
    EditsTo given pre
      (do let c ← act
          pure (c.map f)) k K := by
  have h₁ := h.within 0 stable_true (f := f) (K := K) (by simpa using hg) fun a s ha _ => hR a s ha
  rw [add_zero] at h₁
  exact Turns.mono h₁ (fun s hs => ⟨hs, trivial⟩) fun _ _ hs => hs

theorem EditsTo.assume {P : Prop} (hP : ∀ s, pre s → P) (h : P → EditsTo given pre act g R) :
    EditsTo given pre act g R :=
  Turns.assume hP h

theorem EditsTo.mono {pre' : Store → Prop} (h : EditsTo given pre act g R)
    (hpre : ∀ s, pre' s → pre s) : EditsTo given pre' act g R :=
  Turns.mono h hpre fun _ _ hs => hs

end rules

/-- Plain data is read while something is in hand. -/
theorem Yields.adds {α : Type} {Q : α → Prop} {act : Run α} (h : Yields Q act)
    (r : Multiset Piece) {F : Store → Prop} (hF : Stable F) :
    Turns .shrink r F act (fun _ => r) (fun a s => Q a ∧ F s) r := by
  have h₁ := (Turns.frame h r).keep hF
  simp only [zero_add] at h₁
  exact h₁.mono (fun _ hs => ⟨trivial, hs⟩) fun _ _ hs => hs

theorem Yields.edits {α β : Type} {Q : α → Prop} {act : Run α} (h : Yields Q act)
    {given : Multiset Piece} {F : Store → Prop} (hF : Stable F) {f : α → Run (Change β)}
    {g : β → Multiset Piece} {R : β → Store → Prop} (hf : ∀ a, Q a → EditsTo given F (f a) g R) :
    EditsTo given F (act >>= f) g R := by
  refine Turns.bind ((h.adds given hF).widen (by decide)) fun a frame c hh ho hc => ?_
  exact hf a hc.1 frame c hh ho hc.2

section holes

/-- Taking one place out of a row of places. -/
theorem fitAll_hole {s : Store} {q : Place} {v : Value} {l₁ l₂ : List Value} {ps : List Place}
    (h : ps[l₁.length]? = some q) :
    FitAll s ps (l₁ ++ v :: l₂) ↔ Fits s q v ∧ FitAll s (ps.eraseIdx l₁.length) (l₁ ++ l₂) := by
  induction l₁ generalizing ps with
  | nil =>
    cases ps with
    | nil => simp at h
    | cons p ps =>
      obtain rfl : p = q := by simpa using h
      simp [FitAll]
  | cons x l₁ ih =>
    cases ps with
    | nil => simp at h
    | cons p ps =>
      simp only [List.cons_append, FitAll, List.length_cons, List.eraseIdx_cons_succ,
        ih (by simpa using h)]
      exact and_left_comm

theorem EditsAll.hole {q : Place} {v : Value} {act : Run (Change Value)} (h : Edits q v act)
    {ps : List Place} (l₁ l₂ : List Value) (hq : ps[l₁.length]? = some q) :
    EditsAll ps (l₁ ++ v :: l₂)
      (do let c ← act
          pure (c.map (l₁ ++ · :: l₂))) := by
  have hp : ∀ x : Value, Value.piecesOf (l₁ ++ x :: l₂) = x.pieces + Value.piecesOf (l₁ ++ l₂) := by
    intro x
    simp only [Value.piecesOf_append, Value.piecesOf_cons]
    abel
  have h₁ := EditsTo.within h (Value.piecesOf (l₁ ++ l₂))
    (stable_fitAll (ps.eraseIdx l₁.length) (l₁ ++ l₂)) (f := (l₁ ++ · :: l₂))
    (K := fun vs s => FitAll s ps vs) hp fun a s ha hs => (fitAll_hole hq).mpr ⟨ha, hs⟩
  rw [← hp] at h₁
  exact h₁.mono fun s hs => (fitAll_hole hq).mp hs

theorem Edits.node {p : Place} {shape : Shape} {vs : List Value} {act : Run (Change (List Value))}
    (h : ∀ ps, p.parts shape vs.length = some ps → EditsAll ps vs act) :
    Edits p (.node shape vs)
      (do let c ← act
          pure (c.map (.node shape))) := by
  refine EditsTo.assume (P := ∃ ps, p.parts shape vs.length = some ps ∧ ps.length = vs.length) ?_ ?_
  · rintro s ⟨ps, hp, hs⟩
    exact ⟨ps, hp, fitAll_length hs⟩
  rintro ⟨ps, hp, hlen⟩
  have h₁ := EditsTo.map (h ps hp) (f := Value.node shape) (k := Value.pieces)
    (K := fun v s => Fits s p v) (by simp) fun a s ha => ⟨ps, by rw [← fitAll_length ha, hlen, hp], ha⟩
  rw [← Value.pieces_node shape vs] at h₁
  refine EditsTo.mono h₁ ?_
  rintro s ⟨ps', hp', hs⟩
  obtain rfl : ps' = ps := Option.some.inj (hp'.symm.trans hp)
  exact hs

/-- An edit of one part among others. -/
theorem Edits.hole {p q : Place} {shape : Shape} {v : Value} {act : Run (Change Value)}
    (h : Edits q v act) (l₁ l₂ : List Value)
    (hq : ∀ ps, p.parts shape (l₁ ++ v :: l₂).length = some ps → ps[l₁.length]? = some q) :
    Edits p (.node shape (l₁ ++ v :: l₂))
      (do let c ← act
          pure (c.map fun v => .node shape (l₁ ++ v :: l₂))) := by
  have h₁ := Edits.node fun ps hps => EditsAll.hole h l₁ l₂ (hq ps hps)
  rw [bind_assoc] at h₁
  simp only [pure_bind] at h₁
  exact h₁

/-- An edit inside a wrapper that adds nothing of its own. -/
theorem Edits.wrap {p q : Place} {v : Value} {act : Run (Change Value)} (h : Edits q v act)
    (f : Value → Value) (hf : ∀ a, (f a).pieces = a.pieces)
    (hpq : ∀ a s, Fits s p (f a) ↔ Fits s q a) :
    Edits p (f v)
      (do let c ← act
          pure (c.map f)) := by
  have h₁ := EditsTo.map (K := fun v s => Fits s p v) h hf fun a s => (hpq a s).mpr
  rw [← hf] at h₁
  exact h₁.mono fun s => (hpq v s).mp

theorem EditsAll.part {ps : List Place} {vs : List Value} {i : Nat}
    {change : Value → Run (Change Value)}
    (h : ∀ v q, vs[i]? = some v → ps[i]? = some q → Edits q v (change v)) :
    EditsAll ps vs (Edit.editPart i vs change) := by
  refine EditsTo.assume (P := ps.length = vs.length) (fun s hs => fitAll_length hs) fun hl => ?_
  unfold Edit.editPart
  split
  next v hv =>
    obtain ⟨hi, rfl⟩ := List.getElem?_eq_some_iff.mp hv
    have hq : ps[i]? = some ps[i] := List.getElem?_eq_getElem (by omega)
    have hlen : (vs.take i).length = i := List.length_take_of_le (by omega)
    have h₁ := EditsAll.hole (h _ _ hv hq) (vs.take i) (vs.drop (i + 1))
      (by rw [hlen, hq])
    have hset : ∀ x, vs.take i ++ x :: vs.drop (i + 1) = vs.set i x := by
      intro x
      rw [List.set_eq_take_append_cons_drop, if_pos hi]
    simp only [hset, List.set_getElem_self] at h₁
    exact h₁
  next => exact .refuse

end holes

/-- Edits of lists as a whole. -/
theorem edits_editList (elem : Ty) (vs : List Value) (m : Datum) :
    EditsTo (Value.piecesOf vs) (fun s => ∀ v ∈ vs, HasType s elem v) (Edit.editList elem vs m)
      Value.piecesOf (fun vs s => ∀ v ∈ vs, HasType s elem v) := by
  have hst : Stable fun s => ∀ v ∈ vs, HasType s elem v := fun s s' e h v hv => (h v hv).evolve e
  unfold Edit.editList
  split
  next x _ =>
    refine Turns.bind (((supplies_read elem x).adds (Value.piecesOf vs) hst).widen (by decide))
      fun v => Turns.pure ?_ ?_
    · simp [Edit.counted, add_comm]
    · rintro s ⟨hv, hs⟩
      exact List.forall_mem_append.mpr ⟨hs, by simpa using hv⟩
  next => exact Turns.pure (by simp [Edit.counted]) fun s _ => nofun
  next =>
    split
    next hl =>
      obtain rfl : vs = [] := by simpa using hl
      exact Turns.pure (by simp) fun s _ => nofun
    next last hl =>
      have hd := List.dropLast_append_getLast? last hl
      refine Turns.pure ?_ fun s hs v hv => hs v (List.mem_of_mem_dropLast hv)
      rw [← congrArg Value.piecesOf hd, Value.piecesOf_append]
  next => exact EditsTo.refuse

section maps

variable {key value : Ty}

theorem Entries.erase_pieces (k : Value) (es : Entries) :
    Value.piecesOf (es.erase k).1.list + Value.piecesOf (es.erase k).2.toList =
      Value.piecesOf es.list := by
  unfold Entries.erase
  split
  next i hi =>
    have hlt := (List.findIdx?_eq_some_iff_findIdx_eq.mp hi).1
    have hp := List.getElem_cons_eraseIdx_perm hlt
    rw [List.getElem?_eq_getElem hlt, ← Value.piecesOf_perm hp]
    simp [add_comm]
  next => simp

theorem Entries.Fit.erase {s : Store} {k : Value} {es : Entries} (h : es.Fit s key value) :
    (es.erase k).1.Fit s key value := by
  unfold Entries.erase
  split
  next i hi =>
    have hlt := (List.findIdx?_eq_some_iff_findIdx_eq.mp hi).1
    refine ⟨?_, fun e he => h.2 e (List.mem_of_mem_eraseIdx he)⟩
    have hlt' : i < es.levels.length := by rw [h.1]; exact hlt
    have hl := Levels.length_erase hlt'
    rw [List.length_eraseIdx_of_lt hlt, ← h.1]
    omega
  next => exact h

/-- Edits of maps as a whole. -/
theorem edits_editMap (key value : Ty) (es : Entries) (m : Datum) :
    EditsTo (Value.piecesOf es.list) (fun s => es.Fit s key value) (Edit.editMap key value es m)
      (fun es => Value.piecesOf es.list) (fun es s => es.Fit s key value) := by
  have hst := stable_entries key value es
  unfold Edit.editMap
  split
  next k v _ =>
    refine Turns.bind (((supplies_read key k).adds (Value.piecesOf es.list) hst).widen (by decide))
      fun a => ?_
    have h₁ := (((supplies_read value v).beside [a] (stable_fits (.value key) a)).frame
      (Value.piecesOf es.list)).keep hst
    simp only [Value.piecesOf_cons, Value.piecesOf_nil, add_zero, zero_add] at h₁
    refine Turns.bind ((h₁.mono (fun s hs => hs) fun _ _ hs => hs).widen (by decide))
      fun b => Turns.pure ?_ ?_
    · rw [add_comm b.pieces]
      exact (Entries.insert_pieces a b es).symm
    · rintro s ⟨⟨hb, ha⟩, hs⟩
      exact hs.insert ha hb
  next k _ _ =>
    refine Turns.bind (((supplies_read key k).adds (Value.piecesOf es.list) hst).widen (by decide))
      fun a => Turns.pure ?_ ?_
    · simp only [Edit.countedEntries, Value.piecesOf_cons]
      rw [← Entries.erase_pieces a es]
      abel
    · rintro s ⟨-, hs⟩
      exact hs.erase
  next => exact Turns.pure (by simp [Edit.countedEntries, Entries.empty]) fun s _ => ⟨rfl, nofun⟩
  next => exact EditsTo.refuse

/-- An edit of the value of an entry. -/
theorem edits_entry {e : Value} {change : Value → Run (Change Value)}
    (h : ∀ v, Edits (.value value) v (change v)) :
    Edits (.entry key value) e
      (match e with
        | .node .entry [k, v] => do
          let c ← change v
          pure (c.map (.entry k ·))
        | _ => Run.refuse) := by
  split
  next k v =>
    have h₁ := EditsTo.within (h v) k.pieces (stable_fits (.value key) k) (f := (.entry k ·))
      (k := Value.pieces) (K := fun v s => Fits s (.entry key value) v)
      (fun a => by simp [Value.entry, add_comm]) fun a s ha hk => fits_entry.mpr ⟨k, a, rfl, hk, ha⟩
    have e : (Value.node .entry [k, v]).pieces = v.pieces + k.pieces := by simp [add_comm]
    rw [← e] at h₁
    refine h₁.mono fun s hs => ?_
    obtain ⟨a, b, hab, ha, hb⟩ := fits_entry.mp hs
    cases hab
    exact ⟨hb, ha⟩
  next => exact .refuse

theorem edits_editEntry {k : Value} {n : Nat} {es : List Value}
    {change : Value → Run (Change Value)} (h : ∀ v, Edits (.value value) v (change v)) :
    EditsAll (List.replicate n (.entry key value)) es (Edit.editEntry k es change) := by
  unfold Edit.editEntry
  split
  next i _ =>
    refine EditsAll.part fun e q _ hq => ?_
    obtain rfl : q = .entry key value := List.eq_of_mem_replicate (List.mem_of_getElem? hq)
    exact edits_entry h
  next => exact .refuse

theorem fits_map {s : Store} {t : Ty} {levels : List Nat} {parts : List Value}
    (ht : t ∈ [Ty.sortedMap key value, .hashedMap key value, .fixedMap key value])
    (h : Fits s (.value t) (.node (.map levels) parts)) :
    (Entries.mk levels parts).Fit s key value := by
  obtain ⟨ps, hps, hf⟩ := h
  simp only [List.mem_cons, List.not_mem_nil, or_false] at ht
  obtain ⟨hl, rfl⟩ : parts.length = levels.length ∧
      List.replicate parts.length (.entry key value) = ps := by
    obtain rfl | rfl | rfl := ht <;> simpa [Place.parts] using hps
  exact ⟨hl.symm, (fitAll_replicate.mp hf).2⟩

theorem edits_whole {t : Ty} {levels : List Nat} {parts : List Value} {m : Datum}
    (ht : t ∈ [Ty.sortedMap key value, .hashedMap key value, .fixedMap key value]) :
    Edits (.value t) (.node (.map levels) parts) (do
      let c ← Edit.editMap key value ⟨levels, parts⟩ m
      pure (c.map Entries.toValue)) := by
  have h₁ := EditsTo.map (K := fun v s => Fits s (.value t) v) (k := Value.pieces)
    (edits_editMap key value ⟨levels, parts⟩ m) (fun es => by simp [Entries.toValue])
    fun a s ha => hasType_entries ht ha
  rw [← Value.pieces_node (.map levels)] at h₁
  exact h₁.mono fun s h => fits_map ht h

/-- An edit under a key that is read for the purpose and given up afterwards. -/
theorem edits_under {t : Ty} {levels : List Nat} {parts : List Value} {d : Option Datum}
    {change : Value → Run (Change Value)}
    (ht : t ∈ [Ty.sortedMap key value, .hashedMap key value, .fixedMap key value])
    (h : ∀ v, Edits (.value value) v (change v)) :
    Edits (.value t) (.node (.map levels) parts) (do
      let k ← Reader.read key (← Run.orRefuse d)
      let c ← Run.unwinding [k] (Edit.editEntry k parts change)
      pure ⟨.node (.map levels) c.result, k :: c.removed, c.reply⟩) := by
  refine EditsTo.assume (P := levels.length = parts.length) (fun s h => (fits_map ht h).1) fun hl => ?_
  refine (yields_orRefuse _).edits (stable_fits _ _) fun x _ => ?_
  refine Turns.bind (((supplies_read key x).adds _ (stable_fits _ _)).widen (by decide)) fun k => ?_
  have h₀ : EditsTo (Value.piecesOf parts)
      (fun s => FitAll s (List.replicate parts.length (.entry key value)) parts)
      (Edit.editEntry k parts change) Value.piecesOf
      (fun vs s => FitAll s (List.replicate parts.length (.entry key value)) vs) := edits_editEntry h
  have h₁ := Turns.frame h₀ k.pieces
  refine Turns.bind (G := fun c => Value.piecesOf c.result + Value.piecesOf c.removed + k.pieces)
    (Q := fun c s => FitAll s (List.replicate parts.length (.entry key value)) c.result)
    (Turns.unwinding ?_) fun c => Turns.pure ?_ fun s hs => ?_
  · rw [Value.pieces_node, add_comm k.pieces, Value.piecesOf_cons, Value.piecesOf_nil, add_zero,
      add_comm k.pieces]
    exact h₁.mono (fun s hs => fitAll_replicate.mpr ⟨rfl, (fits_map ht hs.2).2⟩) fun _ _ hs => hs
  · simp only [Value.pieces_node, Value.piecesOf_cons]
    abel
  · obtain ⟨hlen, hf⟩ := fitAll_replicate.mp hs
    have he : (Entries.mk levels c.result).Fit s key value := ⟨hl.trans hlen.symm, hf⟩
    exact hasType_entries ht he

end maps

theorem IntType.holds_wrap (t : IntType) (n : Int) : t.holds (t.wrap n) := by
  have hp : 0 < Nat.pow 2 t.bits := Nat.two_pow_pos _
  have h₁ := Int.le_bmod (x := n) hp
  have h₂ := Int.bmod_lt (x := n) hp
  cases t <;>
    simp only [bits, Nat.pow_eq, Nat.cast_pow] at h₁ h₂ <;>
    simp only [holds, wrap, minimum, maximum, signed, bits, Bool.and_eq_true, decide_eq_true_eq,
      if_true, if_false, Bool.false_eq_true, Nat.pow_eq, Int.pow_eq] <;>
    omega

/-- Edits along smaller paths are edits, whatever the type and the value. -/
def EditsBelow (m : Datum) : Prop :=
  ∀ path : Datum, sizeOf path < sizeOf m → ∀ t v, Edits (.value t) v (Edit.edit t v path)

section types

variable {m : Datum} {v : Value}

/-- What the edits of every type have in common. -/
theorem edits_common {t : Ty}
    (h : m.field? "set" = none → m.field? "panic" = none → Edits (.value t) v (Edit.edit t v m)) :
    Edits (.value t) v (Edit.edit t v m) := by
  cases hs : m.field? "set" with
  | some x =>
    rw [Edit.edit.eq_def, hs]
    refine Turns.bind (((supplies_read t x).adds v.pieces (stable_fits _ v)).widen (by decide))
      fun new => Turns.pure (by simp) fun s hs => hs.1
  | none =>
    cases hp : m.field? "panic" with
    | some text =>
      rw [Edit.edit.eq_def, hs, hp]
      exact (yields_orRefuse _).edits (stable_fits _ v) fun _ _ => Turns.throw rfl
    | none => exact h hs hp

/-- Lists and arrays pick a part by its number. -/
theorem edits_at {ps : List Place} {elem : Ty} {parts : List Value} {path : Datum}
    (hps : ∀ q ∈ ps, q = .value elem) (ih : ∀ v, Edits (.value elem) v (Edit.edit elem v path)) :
    EditsAll ps parts (do
      let i ← Reader.readNat .usize (m.field? "at")
      Edit.editPart i parts fun p => Edit.edit elem p path) := by
  refine (yields_readNat _ _).edits (stable_fitAll _ _) fun i _ => EditsAll.part fun v q _ hq => ?_
  rw [hps q (List.mem_of_getElem? hq)]
  exact ih v

variable (hs : m.field? "set" = none) (hp : m.field? "panic" = none)

include hs hp

theorem edits_int (it : IntType) (n : Int) :
    Edits (.value (.int it)) (.int n) (Edit.edit (.int it) (.int n) m) := by
  rw [Edit.edit.eq_def, hs, hp]
  refine (yields_orRefuse _).edits (stable_fits _ _) fun x _ => ?_
  rw [← bind_assoc]
  refine (yields_expectInt (supplies_read (.int it) x)).edits (stable_fits _ _) fun k _ => ?_
  exact Turns.pure (by simp) fun s _ => hasType_int (it.holds_wrap _)

theorem edits_string (text : String) :
    Edits (.value .string) (.text text) (Edit.edit .string (.text text) m) := by
  rw [Edit.edit.eq_def, hs, hp]
  exact (yields_orRefuse _).edits (stable_fits _ _) fun more _ =>
    Turns.pure (by simp) fun s _ => ⟨_, rfl, rfl⟩

theorem edits_list (elem : Ty) (shape : Shape) (parts : List Value) (ih : EditsBelow m) :
    Edits (.value (.list elem)) (.node shape parts)
      (Edit.edit (.list elem) (.node shape parts) m) := by
  rw [Edit.edit.eq_def, hs, hp]
  dsimp only
  split
  next =>
    refine EditsTo.assume (fun s h => (fits_list.mp h).1) ?_
    rintro rfl
    rw [Value.pieces_node]
    exact ((edits_editList elem parts m).map (by simp) fun a s ha => hasType_list ha).mono
      fun s h => (fits_list.mp h).2
  next =>
    split
    next path hpath =>
      rw [← bind_assoc]
      refine Edits.node fun ps hps => edits_at (fun q hq => ?_) fun v =>
        ih path (Datum.sizeOf_field hpath) elem v
      cases shape <;> simp only [Place.parts, reduceCtorEq, Option.some.injEq] at hps
      subst hps
      exact List.eq_of_mem_replicate hq
    next => exact EditsTo.refuse

theorem edits_array (elem : Ty) (size : Nat) (shape : Shape) (parts : List Value)
    (ih : EditsBelow m) :
    Edits (.value (.array elem size)) (.node shape parts)
      (Edit.edit (.array elem size) (.node shape parts) m) := by
  rw [Edit.edit.eq_def, hs, hp]
  dsimp only
  split
  next path hpath =>
    rw [← bind_assoc]
    refine Edits.node fun ps hps => edits_at (fun q hq => ?_) fun v =>
      ih path (Datum.sizeOf_field hpath) elem v
    cases shape <;> simp only [Place.parts, reduceCtorEq, Option.ite_none_right_eq_some,
      Option.some.injEq] at hps
    rw [← hps.2] at hq
    exact List.eq_of_mem_replicate hq
  next => exact EditsTo.refuse

theorem edits_tuple (first rest : Ty) (shape : Shape) (parts : List Value) (ih : EditsBelow m) :
    Edits (.value (.tuple first rest)) (.node shape parts)
      (Edit.edit (.tuple first rest) (.node shape parts) m) := by
  rw [Edit.edit.eq_def, hs, hp]
  dsimp only
  split
  next path hpath =>
    refine (yields_orRefuse _).edits (stable_fits _ _) fun i _ => ?_
    refine (yields_orRefuse _).edits (stable_fits _ _) fun component hc => ?_
    refine Edits.node fun ps hps => EditsAll.part fun v q _ hq => ?_
    cases shape <;> simp only [Place.parts, reduceCtorEq, Option.some.injEq] at hps
    have hq' : q = .value component := by
      have hc' : (first :: rest.components)[i]? = some component := hc
      rw [← hps, List.getElem?_map, hc'] at hq
      simpa using hq.symm
    rw [hq']
    exact ih path (Datum.sizeOf_field hpath) component v
  next => exact EditsTo.refuse

/-- The three kinds of maps are edited alike. -/
theorem edits_map {t : Ty} (key value : Ty) (levels : List Nat) (parts : List Value) (ih : EditsBelow m)
    (ht : t ∈ [Ty.sortedMap key value, .hashedMap key value, .fixedMap key value]) :
    Edits (.value t) (.node (.map levels) parts) (Edit.edit t (.node (.map levels) parts) m) := by
  have ht' := ht
  simp only [List.mem_cons, List.not_mem_nil, or_false] at ht'
  obtain rfl | rfl | rfl := ht'
  all_goals
    rw [Edit.edit.eq_def, hs, hp]
    dsimp only
    split
    next =>
      exact edits_whole ht
    next =>
      split
      next path hpath =>
        exact edits_under ht fun v => ih path (Datum.sizeOf_field hpath) value v
      next => exact EditsTo.refuse

theorem edits_cell (elem : Ty) (kind : HandleKind) (target : Option Nat) (ih : EditsBelow m) :
    Edits (.value (.cell elem)) (.handle kind target)
      (Edit.edit (.cell elem) (.handle kind target) m) := by
  refine EditsTo.assume (P := kind = .cell) ?_ ?_
  · rintro s ⟨t, ht, hk, -⟩
    cases ht
    exact (Option.some.inj hk).symm
  rintro rfl
  rw [Edit.edit.eq_def, hs, hp]
  dsimp only
  split
  next x _ =>
    refine Turns.bind (((supplies_read elem x).adds _ (stable_fits _ _)).widen (by decide))
      fun content => ?_
    rw [add_comm]
    refine Turns.bind ((turns_put elem target content).mono (fun s hs => ⟨hs.2, hs.1⟩)
      fun _ _ hs => hs) fun _ => Turns.pure (by simp) fun s hs => hs
  next path _ hpath =>
    refine Turns.bind (turns_update elem target (G := fun c => Value.piecesOf c.removed) ?_)
      fun c => Turns.pure rfl fun s hs => hs
    exact fun content => Turns.bind (ih path (Datum.sizeOf_field hpath) elem content) fun c =>
      Turns.pure rfl fun s hs => hs
  next => exact EditsTo.refuse

theorem edits_dog (shape : Shape) (name tricks : Value) (ih : EditsBelow m) :
    Edits (.value .dog) (.node shape [name, tricks])
      (Edit.edit .dog (.node shape [name, tricks]) m) := by
  rw [Edit.edit.eq_def, hs, hp]
  dsimp only
  split
  next path hpath =>
    refine Edits.hole (ih path (Datum.sizeOf_field hpath) _ tricks) [name] []
      fun ps hps => ?_
    cases shape <;> simp only [Place.parts, reduceCtorEq, Option.some.injEq] at hps
    subst hps
    rfl
  next => exact EditsTo.refuse

theorem edits_inventory (shape : Shape) (owner items stock : Value) (ih : EditsBelow m) :
    Edits (.value .inventory) (.node shape [owner, items, stock])
      (Edit.edit .inventory (.node shape [owner, items, stock]) m) := by
  rw [Edit.edit.eq_def, hs, hp]
  dsimp only
  split
  next path hpath =>
    refine Edits.hole (ih path (Datum.sizeOf_field hpath) _ items) [owner] [stock]
      fun ps hps => ?_
    cases shape <;> simp only [Place.parts, reduceCtorEq, Option.some.injEq] at hps
    subst hps
    rfl
  next path _ hpath =>
    refine Edits.hole (ih path (Datum.sizeOf_field hpath) _ stock) [owner, items] []
      fun ps hps => ?_
    cases shape <;> simp only [Place.parts, reduceCtorEq, Option.some.injEq] at hps
    subst hps
    rfl
  next => exact EditsTo.refuse

theorem edits_dyn (shape : Shape) (parts : List Value)
    (ih : ∀ w, sizeOf w < sizeOf (Value.node shape parts) → ∀ t,
      Edits (.value t) w (Edit.edit t w m)) :
    Edits (.value .dyn) (.node shape parts) (Edit.edit .dyn (.node shape parts) m) := by
  rw [Edit.edit.eq_def, hs, hp]
  dsimp only
  split
  all_goals try contradiction
  next p _ hv =>
    cases hv
    have h := ih p (by simp; omega) .dyn
    refine h.wrap (fun p => .node (.variant .opt) [.node .some [.node .box [p]]]) (by simp)
      fun a s => ?_
    rw [fits_one (q := .value (.option (.boxed .dyn))) rfl, fits_one (q := .value (.boxed .dyn)) rfl,
      fits_one rfl]
  next p _ hv =>
    cases hv
    have h := ih p (by simp; omega) (.array .dyn 2)
    refine h.wrap (fun p => .node (.variant .arr) [.node .box [p]]) (by simp) fun a s => ?_
    rw [fits_one (q := .value (.boxed (.array .dyn 2))) rfl, fits_one rfl]
  next variant p _ _ _ hv =>
    cases hv
    have h := ih p (by simp; omega) variant.content
    exact h.wrap (fun p => .node (.variant variant) [p]) (by simp) fun a s => fits_one rfl
  next => exact EditsTo.refuse

theorem edits_option (elem : Ty) (p : Value) (ih : EditsBelow m) :
    Edits (.value (.option elem)) (.node .some [p]) (Edit.edit (.option elem) (.node .some [p]) m) := by
  rw [Edit.edit.eq_def, hs, hp]
  dsimp only
  split
  next path hpath =>
    exact (ih path (Datum.sizeOf_field hpath) elem p).wrap (fun p => .node .some [p]) (by simp)
      fun a s => fits_one rfl
  next => exact EditsTo.refuse

theorem edits_boxed (elem : Ty) (p : Value) (ih : EditsBelow m) :
    Edits (.value (.boxed elem)) (.node .box [p]) (Edit.edit (.boxed elem) (.node .box [p]) m) := by
  rw [Edit.edit.eq_def, hs, hp]
  dsimp only
  split
  next path hpath =>
    exact (ih path (Datum.sizeOf_field hpath) elem p).wrap (fun p => .node .box [p]) (by simp)
      fun a s => fits_one rfl
  next => exact EditsTo.refuse

end types

/-- The types with the values that a path can lead into. -/
inductive Editable : Ty → Value → Prop where
  | int (it : IntType) (n : Int) : Editable (.int it) (.int n)
  | string (text : String) : Editable .string (.text text)
  | list (elem : Ty) (shape : Shape) (parts : List Value) : Editable (.list elem) (.node shape parts)
  | array (elem : Ty) (size : Nat) (shape : Shape) (parts : List Value) :
    Editable (.array elem size) (.node shape parts)
  | tuple (first rest : Ty) (shape : Shape) (parts : List Value) :
    Editable (.tuple first rest) (.node shape parts)
  | map (t key value : Ty) (levels : List Nat) (parts : List Value)
    (ht : t ∈ [Ty.sortedMap key value, .hashedMap key value, .fixedMap key value]) :
    Editable t (.node (.map levels) parts)
  | option (elem : Ty) (p : Value) : Editable (.option elem) (.node .some [p])
  | boxed (elem : Ty) (p : Value) : Editable (.boxed elem) (.node .box [p])
  | cell (elem : Ty) (kind : HandleKind) (target : Option Nat) :
    Editable (.cell elem) (.handle kind target)
  | dog (shape : Shape) (name tricks : Value) : Editable .dog (.node shape [name, tricks])
  | inventory (shape : Shape) (owner items stock : Value) :
    Editable .inventory (.node shape [owner, items, stock])
  | dyn (shape : Shape) (parts : List Value) : Editable .dyn (.node shape parts)

/-- Any other value cannot be edited except as a whole. -/
theorem editable_or_refused {t : Ty} {v : Value} {m : Datum} (hs : m.field? "set" = none)
    (hp : m.field? "panic" = none) : Editable t v ∨ Edit.edit t v m = Run.refuse := by
  rw [Edit.edit.eq_def, hs, hp]
  dsimp only
  split
  case h_6 | h_7 | h_8 =>
    rename_i key value _ _
    exact .inl (.map _ key value _ _ (by simp))
  all_goals first
    | exact .inr rfl
    | exact .inl (by constructor)

/-- An edit along any path of a value of any type. -/
theorem edits_edit (t : Ty) (v : Value) (m : Datum) : Edits (.value t) v (Edit.edit t v m) := by
  have below : EditsBelow m := fun path _ t v => edits_edit t v path
  have inner : ∀ w, sizeOf w < sizeOf v → ∀ t, Edits (.value t) w (Edit.edit t w m) :=
    fun w _ t => edits_edit t w m
  refine edits_common fun hs hp => ?_
  rcases editable_or_refused (t := t) (v := v) hs hp with h | h
  · cases h with
    | int it n => exact edits_int hs hp it n
    | string text => exact edits_string hs hp text
    | list elem shape parts => exact edits_list hs hp elem shape parts below
    | array elem size shape parts => exact edits_array hs hp elem size shape parts below
    | tuple first rest shape parts => exact edits_tuple hs hp first rest shape parts below
    | map t k v levels parts ht => exact edits_map hs hp k v levels parts below ht
    | option elem p => exact edits_option hs hp elem p below
    | boxed elem p => exact edits_boxed hs hp elem p below
    | cell elem kind target => exact edits_cell hs hp elem kind target below
    | dog shape name tricks => exact edits_dog hs hp shape name tricks below
    | inventory shape owner items stock =>
      exact edits_inventory hs hp shape owner items stock below
    | dyn shape parts => exact edits_dyn hs hp shape parts inner
  · rw [h]
    exact EditsTo.refuse
termination_by (sizeOf m, sizeOf v)

end SharedValues
