import Mathlib
import SharedValues.Proofs.Separation

/-!
A deep copy and its source. What is written through one of them along owned paths does not change
the other: the text of a value depends on nothing but what it leads to, and that is guarded. Slots
and functions are shared on purpose, so what they lead to can be changed from the side of the
source, which the copy then shows.
-/
namespace SharedValues

/-- The allocation has the same role and content in both stores. -/
def Store.SameAt (s s' : Store) (id : Nat) : Prop :=
  ∃ a b, s.get? id = some a ∧ s'.get? id = some b ∧ b.role = a.role ∧ b.content = a.content

/-- In states with the given stores the two actions have the same outcome, and report the same. -/
def Alike {α : Type} (s s' : Store) (act act' : Run α) : Prop :=
  ∀ w w', w.store = s → w'.store = s' → ∃ es : List Event,
    (∃ a, act w = .ok a (w.recordAll es) ∧ act' w' = .ok a (w'.recordAll es)) ∨
      ∃ e, act w = .error e (w.recordAll es) ∧ act' w' = .error e (w'.recordAll es)

namespace Alike

variable {α β : Type} {s s' : Store}

theorem pure (a : α) : Alike s s' (pure a) (pure a) :=
  fun w w' _ _ => ⟨[], .inl ⟨a, by rw [w.recordAll_nil]; rfl, by rw [w'.recordAll_nil]; rfl⟩⟩

theorem throw (e : Stop) : Alike s s' (throw e : Run α) (throw e) :=
  fun w w' _ _ => ⟨[], .inr ⟨e, by rw [w.recordAll_nil]; rfl, by rw [w'.recordAll_nil]; rfl⟩⟩

theorem record (e : Event) : Alike s s' (Run.record e) (Run.record e) :=
  fun _ _ _ _ => ⟨[e], .inl ⟨(), rfl, rfl⟩⟩

theorem bind {act act' : Run α} {f g : α → Run β} (h : Alike s s' act act')
    (hf : ∀ a, Alike s s' (f a) (g a)) : Alike s s' (act >>= f) (act' >>= g) := by
  intro w w' hw hw'
  obtain ⟨es, ⟨a, ha, ha'⟩ | ⟨e, he, he'⟩⟩ := h w w' hw hw'
  · rw [Run.bind_of_ok ha, Run.bind_of_ok ha']
    obtain ⟨fs, hfs⟩ := hf a (w.recordAll es) (w'.recordAll es) hw hw'
    rw [World.recordAll_recordAll, World.recordAll_recordAll] at hfs
    exact ⟨es ++ fs, hfs⟩
  · rw [Run.bind_of_error he, Run.bind_of_error he']
    exact ⟨es, .inr ⟨e, rfl, rfl⟩⟩

theorem callHook (k : Hook) (p : Probe) : Alike s s' (Run.callHook k p) (Run.callHook k p) := by
  refine bind (record _) fun _ => ?_
  split
  · exact throw _
  · exact pure _

/-- Reading what is the same in both stores. -/
theorem read {kind : HandleKind} {id : Nat} {a b : Allocation} {f g : Allocation → Run α}
    (ha : s.get? id = some a) (hb : s'.get? id = some b) (hr : b.role = a.role)
    (hk : a.role.kind = kind) (h : Alike s s' (f a) (g b)) :
    Alike s s' (Run.read kind id >>= f) (Run.read kind id >>= g) := by
  intro w w' hw hw'
  have hread : Run.read kind id w = .ok a w := hk ▸ Run.read_of_get? (hw ▸ ha)
  have hread' : Run.read kind id w' = .ok b w' := by
    rw [← hk, ← hr]
    exact Run.read_of_get? (hw' ▸ hb)
  rw [Run.bind_of_ok hread, Run.bind_of_ok hread']
  exact h w w' hw hw'

end Alike

section rendering

variable {s s' : Store} {through through' : HandleKind → Nat → String → Run String}

mutual

/-- Values render alike if their handles do. -/
theorem alike_renderWith : (v : Value) → ∀ out : String,
    (∀ h ∈ v.handles, ∀ out, Alike s s' (through h.kind h.target out) (through' h.kind h.target out)) →
    Alike s s' (v.renderWith through out) (v.renderWith through' out)
  | .scalar x, out, _ => by
    rw [Value.renderWith, Value.renderWith]
    exact .pure _
  | .probe p, out, _ => by
    rw [Value.renderWith, Value.renderWith]
    exact .bind (.callHook _ _) fun _ => .pure _
  | .handle k none, out, _ => by
    rw [Value.renderWith, Value.renderWith]
    exact .pure _
  | .handle k (some id), out, h => by
    rw [Value.renderWith, Value.renderWith]
    exact h ⟨k, id⟩ (by simp [Value.handles]) out
  | .node shape parts, out, h => by
    rw [Value.renderWith, Value.renderWith]
    exact .bind (alike_renderParts _ parts _ (by simpa [Value.handles] using h)) fun _ => .pure _

theorem alike_renderParts (separator : String) : (vs : List Value) → ∀ out : String,
    (∀ h ∈ Value.handlesOf vs, ∀ out,
      Alike s s' (through h.kind h.target out) (through' h.kind h.target out)) →
    Alike s s' (Value.renderParts through separator vs out)
      (Value.renderParts through' separator vs out)
  | [], out, _ => by
    rw [Value.renderParts, Value.renderParts]
    exact .pure _
  | [v], out, h => by
    rw [Value.renderParts, Value.renderParts]
    exact alike_renderWith v out fun x hx => h x (by simp [Value.handlesOf, hx])
  | v :: u :: vs, out, h => by
    rw [Value.renderParts, Value.renderParts]
    · refine .bind (alike_renderWith v out fun x hx => h x ?_) fun out => ?_
      · rw [Value.handlesOf]
        exact List.mem_append.mpr (.inl hx)
      · refine alike_renderParts separator (u :: vs) _ fun x hx => h x ?_
        rw [Value.handlesOf]
        exact List.mem_append.mpr (.inr hx)
    all_goals nofun

end

/-- What a handle leads to renders alike if it is the same in both stores, however many more hops
there are than are needed. -/
theorem alike_renderThrough {rank : Nat → Nat} (hc : s.Closed)
    (hr : ∀ x y, s.Owns x y → y < s.next → rank y < rank x) (hops : Nat) :
    ∀ (hops' : Nat) (x : Handle) (out : String), s.Alive x → rank x.target < hops →
      rank x.target < hops' → (∀ id, s.Leads (fun _ => true) (· = x) id → s.SameAt s' id) →
      Alike s s' (Value.renderThrough hops x.kind x.target out)
        (Value.renderThrough hops' x.kind x.target out) := by
  induction hops with
  | zero => exact fun _ _ _ _ h => absurd h (Nat.not_lt_zero _)
  | succ hops ih =>
    rintro (_ | hops') ⟨k, id⟩ out hal hlt hlt' hsame
    · exact absurd hlt' (Nat.not_lt_zero _)
    · simp only at hlt hlt'
      have hself : s.Leads (fun _ => true) (· = ⟨k, id⟩) id := .held rfl rfl rfl
      obtain ⟨a, b, ha, hb, hrole, hcontent⟩ := hsame id hself
      have hkind : a.role.kind = k := by
        obtain ⟨a', ha', hk⟩ := hal
        obtain rfl := Option.some.inj (ha'.symm.trans ha)
        exact hk
      have hparts : ∀ out, Alike s s' (a.content.renderWith (Value.renderThrough hops) out)
          (a.content.renderWith (Value.renderThrough hops') out) := by
        refine fun out => alike_renderWith a.content out fun y hy out => ?_
        have hy' := hc id a ha y hy
        have hdown := hr id y.target ⟨a, ha, y, hy, rfl⟩ hy'.lt_next
        refine ih hops' y out hy' (by omega) (by omega) fun j hj => hsame j ?_
        exact hj.of_start fun z hz _ => .through hself ha (hz ▸ hy) rfl rfl
      have hslot : ∀ (table : Table) (type : Ty),
          Alike s s' (table.renderWith (Value.renderThrough hops) ⟨type, a.content⟩ out)
            (table.renderWith (Value.renderThrough hops') ⟨type, a.content⟩ out) := by
        intro table type
        unfold Table.renderWith
        split
        · exact hparts out
        · exact .pure _
      cases k with
      | object | callable => exact .pure _
      | slot | cell =>
        rw [Value.renderThrough, Value.renderThrough]
        · refine .read ha hb hrole hkind ?_
          rw [hrole, hcontent]
          cases a.role with
          | slot table type => exact hslot table type
          | _ => exact hparts out
        all_goals simp

/-- The text of a value depends on nothing but what the value leads to. -/
theorem alike_toText {v : Value} (hc : s.Closed) (hac : s.Acyclic)
    (hv : ∀ h ∈ v.handles, s.Alive h) (hn : s.next ≤ s'.next)
    (hsame : ∀ id, s.Sees v id → s.SameAt s' id) : Alike s s' v.toText v.toText := by
  obtain ⟨rank, hr, hlt⟩ := hac.exists_rank
  intro w w' hw hw'
  rw [Value.toText, Value.render, Run.bind_get, Run.bind_get]
  refine alike_renderWith v "" (fun x hx out => ?_) w w' hw hw'
  have hx' := hlt x.target (hv x hx).lt_next
  rw [World.hops, World.hops, hw, hw']
  refine alike_renderThrough hc hr _ _ x out (hv x hx) hx' (Nat.lt_of_lt_of_le hx' hn) fun id hid => ?_
  exact hsame id (hid.mono (by rintro _ rfl; exact hx))

end rendering

namespace Store

variable {s : Store} {follow : HandleKind → Bool} {start : Handle → Prop} {id : Nat}

/-- A path has a first handle, of a kind to be followed. -/
theorem Leads.exists_first (h : s.Leads follow start id) : ∃ x, start x ∧ follow x.kind = true := by
  induction h with
  | held hh hf ht => exact ⟨_, hh, hf⟩
  | through _ _ _ _ _ ih => exact ih

/-- A path ends at its first handle, or goes on from what that points at. -/
theorem Leads.first_or_through {x : Handle} (h : s.Leads follow (· = x) id) :
    id = x.target ∨ ∃ a, s.get? x.target = some a ∧ s.Leads follow (· ∈ a.content.handles) id := by
  induction h with
  | held hh hf ht =>
    subst hh
    exact .inl ht.symm
  | @through j id' b y _ hb hh hf ht ih =>
    rcases ih with rfl | ⟨a, ha, hl⟩
    · exact .inr ⟨b, hb, .held hh hf ht⟩
    · exact .inr ⟨a, ha, .through hl hb hh hf ht⟩

/-- The owned positions are all listed. -/
theorem Spans.mem_of_encloses {vs : List Value} {hs : List Handle} (h : s.Spans vs hs) :
    ∀ v ∈ vs, s.Encloses v id → ∃ x ∈ hs, x.kind.owning = true ∧ x.target = id := by
  induction h with
  | nil => simp
  | scalar _ ih | probe _ ih | absent _ ih =>
    intro v hv he
    rcases List.mem_cons.mp hv with rfl | hv
    · obtain ⟨x, hx, -⟩ := he.exists_first
      simp [Value.handles] at hx
    · exact ih v hv he
  | @shared k target _ _ hk _ ih =>
    intro v hv he
    rcases List.mem_cons.mp hv with rfl | hv
    · obtain ⟨x, hx, hf⟩ := he.exists_first
      obtain rfl : x = ⟨k, target⟩ := by simpa [Value.handles] using hx
      simp [hk] at hf
    · obtain ⟨x, hx, h⟩ := ih v hv he
      exact ⟨x, List.mem_cons_of_mem _ hx, h⟩
  | @owned k target a _ _ hk ha _ ih =>
    intro v hv he
    rcases List.mem_cons.mp hv with rfl | hv
    · have hfirst : s.Leads HandleKind.owning (· = ⟨k, target⟩) id :=
        he.mono fun x hx => by simpa [Value.handles] using hx
      rcases hfirst.first_or_through with rfl | ⟨a', ha', hl⟩
      · exact ⟨_, List.mem_cons_self, hk, rfl⟩
      · obtain rfl := Option.some.inj (ha'.symm.trans ha)
        obtain ⟨x, hx, h⟩ := ih a'.content List.mem_cons_self hl
        exact ⟨x, List.mem_cons_of_mem _ hx, h⟩
    · obtain ⟨x, hx, h⟩ := ih v (List.mem_cons_of_mem _ hv) he
      exact ⟨x, List.mem_cons_of_mem _ hx, h⟩
  | node _ ih =>
    intro v hv he
    rcases List.mem_cons.mp hv with rfl | hv
    · obtain ⟨x, hx, hl⟩ := he.exists_start
      obtain ⟨u, hu, hxu⟩ := Value.mem_handlesOf.mp (by simpa [Value.handles] using hx)
      exact ih u (List.mem_append.mpr (.inl hu)) (hl.mono (by rintro _ rfl; exact hxu))
    · exact ih v (List.mem_append.mpr (.inr hv)) he

end Store

/-- What others hold and all that it leads to is the same in the end, if it was guarded. -/
theorem Leaves.sameAt {guarded : Nat → Prop} {kept : Multiset Piece} {c d : Config}
    (h : Leaves guarded c d) (hc : Config.Sound ⟨c.world, c.hand + kept⟩)
    (hd : Config.Sound ⟨d.world, d.hand + kept⟩) (hl : c.world.locks = []) {u : Value}
    (hu : u.pieces ≤ kept) {follow : HandleKind → Bool}
    (hg : ∀ id, c.world.store.Leads follow (· ∈ u.handles) id → guarded id) {id : Nat}
    (hid : c.world.store.Leads follow (· ∈ u.handles) id) :
    c.world.store.SameAt d.world.store id := by
  have hld : d.world.locks = [] := h.locks.trans hl
  have hheld : ∀ (e : Config), Config.Sound ⟨e.world, e.hand + kept⟩ → ∀ x ∈ u.handles,
      e.world.store.Alive x := fun e he =>
    he.alive_of_le (hu.trans (Multiset.le_add_left _ _))
  have finish : ∀ {x : Handle}, guarded x.target → c.world.store.Alive x → d.world.store.Alive x →
      c.world.store.SameAt d.world.store x.target := by
    rintro x hx ⟨a, ha, -⟩ ⟨b, hb, -⟩
    exact ⟨a, b, ha, hb, (h.fixed _ hx _ _ (Store.fixed_of_get? ha)).2 b hb⟩
  induction hid with
  | held hh hf ht =>
    subst ht
    exact finish (hg _ (.held hh hf rfl)) (hheld c hc _ hh) (hheld d hd _ hh)
  | @through j id' a x hj ha hh hf ht ih =>
    subst ht
    obtain ⟨a', b, ha', hb, -, he⟩ := ih
    obtain rfl := Option.some.inj (ha'.symm.trans ha)
    exact finish (hg _ (.through hj ha hh hf rfl)) (hc.closed hl j a' ha x hh)
      (hd.closed hld j b hb x (he ▸ hh))

/-- Where a deep copy leaves off: the copy is in hand beside its source, and both are apart. -/
theorem Value.deepCopy_apart {w : World} {v : Value} {t : Ty} {kept : Multiset Piece}
    (hs : Config.Sound ⟨w, v.pieces + kept⟩) (hl : w.locks = []) (hac : w.store.Acyclic)
    (hv : HasType w.store t v) (hp : w.store.Consents .deep v) :
    ∃ c w', v.deepCopy w = .ok c w' ∧ Config.Sound ⟨w', c.pieces + (v.pieces + kept)⟩ ∧
      w'.locks = [] ∧ w'.store.Acyclic ∧ (∀ id, w'.store.Encloses c id → w.store.next ≤ id) ∧
      ∀ follow id, w'.store.Leads follow (· ∈ v.handles) id → id < w.store.next := by
  have ha : ∀ h ∈ v.handles, w.store.Alive h := hs.alive_of_le (Multiset.le_add_right _ _)
  have hc := hs.closed hl
  obtain ⟨c, w', he, hs', hg, hsp, -⟩ := v.adds_deepCopy hc hac ha hp
  have hacc := accounts_deepCopy (c := ⟨w, v.pieces + kept⟩) hl hv ha hs
  simp only [he] at hacc
  obtain ⟨_, hm, hkeeps, rfl, -⟩ := hacc
  refine ⟨c, w', he, hs.moves hm, hkeeps.locks.trans hl,
    (hm.widen (by decide)).acyclic hs hl hac, fun id hid => ?_, fun follow id hid => ?_⟩
  · exact (hg.mem_owned.mp (hsp.mem_of_encloses c (by simp) hid)).1
  · obtain ⟨a, hget⟩ := (hid.of_persists hg.persists hc ha).get?_eq_some hc ha
    exact Store.lt_next_of_get? hget

/-- A deep copy and its source are independent. What is written through the copy along owned paths,
without getting hold of a cell or an object from before the copy, changes nothing that the source
leads to, nor its text. What is written through the source without getting hold of what the copy
owns changes nothing that the copy owns. If besides the source owns nothing that the copy leads to,
through a shared slot or function, and does not get hold of it, then nothing changes that the copy
leads to, nor its text. -/
theorem deep_copy_independent {w : World} {v : Value} {t : Ty} {kept : Multiset Piece}
    (hs : Config.Sound ⟨w, v.pieces + kept⟩) (hl : w.locks = []) (hac : w.store.Acyclic)
    (hv : HasType w.store t v) (hp : w.store.Consents .deep v) :
    ∃ c w', v.deepCopy w = .ok c w' ∧
      (∀ d, Writes (· < w.store.next) (v.pieces + kept) ⟨w', c.pieces⟩ d →
        (∀ id, w'.store.Sees v id → w'.store.SameAt d.world.store id) ∧
        Alike w'.store d.world.store v.toText v.toText) ∧
      (∀ d, Writes (w'.store.Encloses c) (c.pieces + kept) ⟨w', v.pieces⟩ d →
        ∀ id, w'.store.Encloses c id → w'.store.SameAt d.world.store id) ∧
      ((∀ id, w'.store.Sees c id → ¬w'.store.Encloses v id) →
        ∀ d, Writes (w'.store.Sees c) (c.pieces + kept) ⟨w', v.pieces⟩ d →
          (∀ id, w'.store.Sees c id → w'.store.SameAt d.world.store id) ∧
          Alike w'.store d.world.store c.toText c.toText) := by
  obtain ⟨c, w', he, hsc, hlw, hacw, hnew, hold⟩ := Value.deepCopy_apart hs hl hac hv hp
  have hsv : Config.Sound ⟨w', v.pieces + (c.pieces + kept)⟩ := by
    rwa [add_left_comm] at hsc
  have hcw := hsc.closed hlw
  have hlocks : ∀ (guarded : Nat → Prop), ∀ id ∈ w'.locks, ¬guarded id := by simp [hlw]
  have howned : ∀ {x : Value} {id : Nat}, w'.store.OwnedBy x.pieces id → w'.store.Encloses x id :=
    fun h => h.mono fun _ hx => Value.handle_mem_pieces.mp hx
  have hle : ∀ x : Value, x.pieces ≤ x.pieces + kept := fun x => Multiset.le_add_right _ _
  refine ⟨c, w', he, fun d hd => ?_, fun d hd => ?_, fun hfar d hd => ?_⟩
  · obtain ⟨hapart, hleaves⟩ := hd.apart
      ⟨hsc, fun id hid hlt => absurd (hnew id (howned hid)) (Nat.not_le.mpr hlt), hlocks _⟩
    have hsame : ∀ id, w'.store.Sees v id → w'.store.SameAt d.world.store id :=
      fun id hid => hleaves.sameAt hsc hapart.sound hlw (hle v) (fun id h => hold _ id h) hid
    exact ⟨hsame, alike_toText hcw hacw (hsv.alive_of_le (Multiset.le_add_right _ _))
      hleaves.evolves.next_le hsame⟩
  · obtain ⟨hapart, hleaves⟩ := hd.apart
      ⟨hsv, fun id hid hc => absurd (hnew id hc) (Nat.not_le.mpr (hold _ id (howned hid))), hlocks _⟩
    exact fun id hid => hleaves.sameAt hsv hapart.sound hlw (hle c) (fun _ h => h) hid
  · obtain ⟨hapart, hleaves⟩ := hd.apart
      ⟨hsv, fun id hid hc => hfar id hc (howned hid), hlocks _⟩
    have hsame : ∀ id, w'.store.Sees c id → w'.store.SameAt d.world.store id :=
      fun id hid => hleaves.sameAt hsv hapart.sound hlw (hle c) (fun _ h => h) hid
    exact ⟨hsame, alike_toText hcw hacw (hsc.alive_of_le (Multiset.le_add_right _ _))
      hleaves.evolves.next_le hsame⟩

/-- Two handles to one cell and a slot. The copy has a cell for each of the handles: what is put into
one of them shows in the copy alone, and what is put into the shared cell in the source alone. -/
theorem deep_copy_independent_shared_cell :
    let steps : List Step :=
      [.define (some "x") (.cell .dyn) (.record [("ref", .record [("int", .int 1)])]),
        .new (some "a") (.int .i32) (.int 7),
        .define (some "v") .dyn (.record [("seq", .list
          [.record [("cell", .record [("$var", .text "x")])],
            .record [("cell", .record [("$var", .text "x")])],
            .record [("any", .record [("$var", .text "a")])]])])]
    let triple (i j : Nat) : Value := .node (.variant .seq) [.node .sequence
      [.node (.variant .cell) [.handle .cell (some i)],
        .node (.variant .cell) [.handle .cell (some j)],
        .node (.variant .any) [.handle .slot (some 1)]]]
    let v := triple 0 0
    let c := triple 2 3
    let kept := Value.piecesOf [.handle .slot (some 1), .handle .cell (some 0)]
    let five : Value := .node (.variant .int) [.int 5]
    let w := Machine.after false steps
    let w' := v.deepCopy.after w
    let left := (Cell.put (some 2) five).after w'
    let right := (Cell.put (some 0) five).after w'
    (Config.Sound ⟨w, v.pieces + kept⟩ ∧ w.locks = [] ∧ w.store.Acyclic ∧ HasType w.store .dyn v ∧
      w.store.Consents .deep v) ∧
    v.deepCopy w = .ok c w' ∧
    (Writes (· < w.store.next) (v.pieces + kept) ⟨w', c.pieces⟩ ⟨left, c.pieces⟩ ∧
      c.toText left = .ok "[5 1 7]" left ∧ Alike w'.store left.store v.toText v.toText) ∧
    (∀ id, w'.store.Sees c id → ¬w'.store.Encloses v id) ∧
    Writes (w'.store.Sees c) (c.pieces + kept) ⟨w', v.pieces⟩ ⟨right, v.pieces⟩ ∧
      v.toText right = .ok "[5 5 7]" right ∧ Alike w'.store right.store c.toText c.toText := by
  intro steps triple v c kept five w w' left right
  have hs : w.store =
      ⟨#[some ⟨.cell .dyn, .node (.variant .int) [.int 1], 3⟩,
        some ⟨.slot ⟨0, .int .i32⟩ (.int .i32), .int 7, 2⟩]⟩ := by
    simp only [w, steps]
    cbv
  have hb : w.bindings = [("a", ⟨.erased, .handle .slot (some 1)⟩), ("v", ⟨.dyn, v⟩),
      ("x", ⟨.cell .dyn, .handle .cell (some 0)⟩)] := by
    simp only [w, steps, v, triple]
    cbv
  have he : v.deepCopy w = .ok c w' := by
    simp only [v, c, triple, w', w, steps]
    cbv
  have hs' : w'.store =
      ⟨#[some ⟨.cell .dyn, .node (.variant .int) [.int 1], 3⟩,
        some ⟨.slot ⟨0, .int .i32⟩ (.int .i32), .int 7, 3⟩,
        some ⟨.cell .dyn, .node (.variant .int) [.int 1], 1⟩,
        some ⟨.cell .dyn, .node (.variant .int) [.int 1], 1⟩]⟩ := by
    simp only [w', v, triple, w, steps]
    cbv
  have hl' : w'.locks = [] := by
    simp only [w', v, triple, w, steps]
    cbv
  have hw : w.Settled := Machine.settled_after false steps
  have howned : w.owned = v.pieces + kept := by
    simp only [World.owned, hb, List.map_cons, List.map_nil, kept, Value.piecesOf_cons, add_left_comm]
  have hsound : Config.Sound ⟨w, v.pieces + kept⟩ := howned ▸ hw.sound
  have hac : w.store.Acyclic := Store.acyclic_of_lt (by rw [hs]; decide)
  have hv : HasType w.store .dyn v := hw.sound.bound ("v", ⟨.dyn, v⟩) (by simp [hb])
  have hp : w.store.Consents .deep v := .of_probes (by decide) (by rw [hs]; decide)
  have hfive : HasType w'.store .dyn five := hasType_variant (hasType_int (by decide))
  have hleft : Writes (· < w.store.next) (v.pieces + kept) ⟨w', c.pieces⟩ ⟨left, c.pieces⟩ := by
    have ha : w'.store.get? 2 = some ⟨.cell .dyn, .node (.variant .int) [.int 1], 1⟩ := by
      rw [hs']
      rfl
    refine .put_plain rfl ha rfl (by simp [hl']) ?_ hfive
    exact .held (h := ⟨.cell, 2⟩) (by decide) rfl rfl
  have hright : Writes (w'.store.Sees c) (c.pieces + kept) ⟨w', v.pieces⟩ ⟨right, v.pieces⟩ := by
    have ha : w'.store.get? 0 = some ⟨.cell .dyn, .node (.variant .int) [.int 1], 3⟩ := by
      rw [hs']
      rfl
    refine .put_plain rfl ha rfl (by simp [hl']) ?_ hfive
    exact .held (h := ⟨.cell, 0⟩) (by decide) rfl rfl
  have hfar : ∀ id, w'.store.Sees c id → ¬w'.store.Encloses v id := by
    intro id hc hv
    have hpos : 0 < id := hc.within (P := (0 < ·)) (by decide) (by rw [hs']; decide)
    have hzero : id = 0 := hv.within (P := (· = 0)) (by decide) (by rw [hs']; decide)
    omega
  obtain ⟨_, _, he', hcopy, -, hsource⟩ := deep_copy_independent hsound hw.locks hac hv hp
  rw [he] at he'
  cases he'
  refine ⟨⟨hsound, hw.locks, hac, hv, hp⟩, he, ⟨hleft, ?_, (hcopy _ hleft).2⟩, hfar, hright, ?_,
    (hsource hfar _ hright).2⟩
  · simp only [left, five, c, w', v, triple, w, steps]
    cbv
  · simp only [right, five, w', v, triple, w, steps]
    cbv

/-- What the copy shares with its source, and what the source gets hold of, can be changed through
the source. A slot that is shared shows what is put into the cell behind it, which the source owns.
And once a cell of the copy is put into the source, it is on an owned path of both. -/
theorem deep_copy_shows_source_writes :
    let steps : List Step :=
      [.define (some "x") (.cell .dyn) (.record [("ref", .record [("int", .int 1)])]),
        .new (some "a") (.cell .dyn) (.record [("$var", .text "x")]),
        .define (some "v") .dyn (.record [("seq", .list
          [.record [("cell", .record [("$var", .text "x")])],
            .record [("any", .record [("$var", .text "a")])]])])]
    let pair (id : Nat) : Value := .node (.variant .seq) [.node .sequence
      [.node (.variant .cell) [.handle .cell (some id)], .node (.variant .any) [.handle .slot (some 1)]]]
    let v := pair 0
    let c := pair 2
    let kept := Value.piecesOf [.handle .slot (some 1), .handle .cell (some 0)]
    let five : Value := .node (.variant .int) [.int 5]
    let part : Value := .node (.variant .cell) [.handle .cell (some 2)]
    let w := Machine.after false steps
    let w' := v.deepCopy.after w
    let behind := (Cell.put (some 0) five).after w'
    let cloned := part.clone.after w'
    let joined := (Cell.put (some 0) part).after cloned
    let across := (Cell.put (some 2) five).after joined
    (Config.Sound ⟨w, v.pieces + kept⟩ ∧ w.locks = [] ∧ w.store.Acyclic ∧ HasType w.store .dyn v ∧
      w.store.Consents .deep v) ∧
    v.deepCopy w = .ok c w' ∧ c.toText w' = .ok "[1 1]" w' ∧
    (Writes (fun _ => True) (c.pieces + kept) ⟨w', v.pieces⟩ ⟨behind, v.pieces⟩ ∧
      c.toText behind = .ok "[1 5]" behind) ∧
    Writes (· < w.store.next) (c.pieces + kept) ⟨w', v.pieces⟩ ⟨across, v.pieces⟩ ∧
      c.toText across = .ok "[5 5]" across := by
  intro steps pair v c kept five part w w' behind cloned joined across
  have hs : w.store =
      ⟨#[some ⟨.cell .dyn, .node (.variant .int) [.int 1], 3⟩,
        some ⟨.slot ⟨0, .cell .dyn⟩ (.cell .dyn), .handle .cell (some 0), 2⟩]⟩ := by
    simp only [w, steps]
    cbv
  have hb : w.bindings = [("a", ⟨.erased, .handle .slot (some 1)⟩), ("v", ⟨.dyn, v⟩),
      ("x", ⟨.cell .dyn, .handle .cell (some 0)⟩)] := by
    simp only [w, steps, v, pair]
    cbv
  have he : v.deepCopy w = .ok c w' := by
    simp only [v, c, pair, w', w, steps]
    cbv
  have hs' : w'.store =
      ⟨#[some ⟨.cell .dyn, .node (.variant .int) [.int 1], 3⟩,
        some ⟨.slot ⟨0, .cell .dyn⟩ (.cell .dyn), .handle .cell (some 0), 3⟩,
        some ⟨.cell .dyn, .node (.variant .int) [.int 1], 1⟩]⟩ := by
    simp only [w', v, pair, w, steps]
    cbv
  have hcloned : part.clone w' = .ok part cloned := by
    simp only [cloned, part, w', v, pair, w, steps]
    cbv
  have hsk : cloned.store =
      ⟨#[some ⟨.cell .dyn, .node (.variant .int) [.int 1], 3⟩,
        some ⟨.slot ⟨0, .cell .dyn⟩ (.cell .dyn), .handle .cell (some 0), 3⟩,
        some ⟨.cell .dyn, .node (.variant .int) [.int 1], 2⟩]⟩ := by
    simp only [cloned, part, w', v, pair, w, steps]
    cbv
  have hlk : cloned.locks = [] := by
    simp only [cloned, part, w', v, pair, w, steps]
    cbv
  have hsj : joined.store =
      ⟨#[some ⟨.cell .dyn, part, 3⟩,
        some ⟨.slot ⟨0, .cell .dyn⟩ (.cell .dyn), .handle .cell (some 0), 3⟩,
        some ⟨.cell .dyn, .node (.variant .int) [.int 1], 2⟩]⟩ := by
    simp only [joined, cloned, part, w', v, pair, w, steps]
    cbv
  have hlj : joined.locks = [] := by
    simp only [joined, cloned, part, w', v, pair, w, steps]
    cbv
  have hw : w.Settled := Machine.settled_after false steps
  have howned : w.owned = v.pieces + kept := by
    simp only [World.owned, hb, List.map_cons, List.map_nil, kept, Value.piecesOf_cons, add_left_comm]
  have hsound : Config.Sound ⟨w, v.pieces + kept⟩ := howned ▸ hw.sound
  have hac : w.store.Acyclic := Store.acyclic_of_lt (by rw [hs]; decide)
  have hv : HasType w.store .dyn v := hw.sound.bound ("v", ⟨.dyn, v⟩) (by simp [hb])
  have hp : w.store.Consents .deep v := .of_probes (by decide) (by rw [hs]; decide)
  have hfive : ∀ s : Store, HasType s .dyn five := fun s => hasType_variant (hasType_int (by decide))
  obtain ⟨_, _, he', hsc, hl', -⟩ := Value.deepCopy_apart hsound hw.locks hac hv hp
  rw [he] at he'
  cases he'
  rw [add_left_comm] at hsc
  have hbehind : Writes (fun _ => True) (c.pieces + kept) ⟨w', v.pieces⟩ ⟨behind, v.pieces⟩ := by
    have ha : w'.store.get? 0 = some ⟨.cell .dyn, .node (.variant .int) [.int 1], 3⟩ := by
      rw [hs']
      rfl
    refine .put_plain rfl ha rfl (by simp [hl']) ?_ (hfive _)
    exact .held (h := ⟨.cell, 0⟩) (by decide) rfl rfl
  have hpart : ∀ s : Store, s.Points (.cell .dyn) 2 → HasType s .dyn part := fun s hs =>
    hasType_variant (hasType_handle.mpr ⟨rfl, fun id hid => Option.some.inj hid ▸ hs⟩)
  have hclone : Writes (· < w.store.next) (c.pieces + kept) ⟨w', v.pieces⟩
      ⟨cloned, part.pieces + v.pieces⟩ := by
    have ha : w'.store.get? 2 = some ⟨.cell .dyn, .node (.variant .int) [.int 1], 1⟩ := by
      rw [hs']
      rfl
    refine .clone hsc (hpart _ (Store.points_of_get? ha rfl)) (by rw [hs']; decide) ?_ hcloned
    exact fun id hid => hid.within (P := (¬· < w.store.next)) (by rw [hs]; decide)
      (by rw [hs, hs']; decide)
  have hjoin : Writes (· < w.store.next) (c.pieces + kept) ⟨cloned, part.pieces + v.pieces⟩
      ⟨joined, v.pieces⟩ := by
    have ha : cloned.store.get? 0 = some ⟨.cell .dyn, .node (.variant .int) [.int 1], 3⟩ := by
      rw [hsk]
      rfl
    have hb : cloned.store.get? 2 = some ⟨.cell .dyn, .node (.variant .int) [.int 1], 2⟩ := by
      rw [hsk]
      rfl
    refine .put_after ha rfl (by simp [hlk]) ?_ (hpart _ (Store.points_of_get? hb rfl))
    exact .held (h := ⟨.cell, 0⟩) (by decide) rfl rfl
  have hacross : Writes (· < w.store.next) (c.pieces + kept) ⟨joined, v.pieces⟩
      ⟨across, v.pieces⟩ := by
    have ha : joined.store.get? 2 = some ⟨.cell .dyn, .node (.variant .int) [.int 1], 2⟩ := by
      rw [hsj]
      rfl
    have hfirst : joined.store.OwnedBy v.pieces 0 := .held (h := ⟨.cell, 0⟩) (by decide) rfl rfl
    refine .put_plain rfl ha rfl (by simp [hlj]) ?_ (hfive _)
    exact hfirst.through (h := ⟨.cell, 2⟩) (by rw [hsj]; rfl) (by decide) rfl rfl
  refine ⟨⟨hsound, hw.locks, hac, hv, hp⟩, he, ?_, ⟨hbehind, ?_⟩,
    hclone.trans (hjoin.trans hacross), ?_⟩
  · simp only [c, w', v, pair, w, steps]
    cbv
  · simp only [behind, five, c, w', v, pair, w, steps]
    cbv
  · simp only [across, joined, cloned, part, five, c, w', v, pair, w, steps]
    cbv

end SharedValues
