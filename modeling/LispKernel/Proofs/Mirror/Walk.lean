import LispKernel.Proofs.Mirror.Run

/-!
# Walks and comparisons in the image of a world

Operations on inert values follow in the image of a world, on the images of the values. They take
storage in step, so the pieces that one run takes are the images of those that the other takes; and
they look at the numbers of storage only to see whether they are the same.
-/
namespace LispKernel

open Value (Inert inert_iff inert_vector inert_set inert_map inert_atom)

variable {M : Mirror}

/-- The comparisons of inert values and of their images come to the same. -/
def Comparison.Mirrored (M : Mirror) (eq eq' : Comparison) : Prop :=
  ∀ a b, a.Inert → b.Inert →
    M.Exact (fun _ => True) id (eq a b) (eq' (a.rename M.number) (b.rename M.number))

theorem Comparison.Mirrored.lenient {eq eq' : Comparison} (h : Comparison.Mirrored M eq eq') :
    Comparison.Mirrored M eq.lenient eq'.lenient :=
  fun a b ha hb => (h a b ha hb).lenient

theorem Comparison.Mirrored.sure {eq eq' : Comparison} (h : Comparison.Mirrored M eq eq') :
    eq.Sure M.Holds fun _ => True :=
  fun a b ha hb => (h a b ha hb).endsIn

theorem Vec.ofList_mirrored (items : List Value) : M.Exact (fun _ => True) (Vec.rename M.number)
    (ofList items) (ofList (items.map (Value.rename M.number))) := by
  refine Mirror.Follows.freshStorage.bind fun k _ => .pure trivial ?_
  simp [rename, Block.rename]

/-! ## Sequences -/

/-- A sequence without information is inert if it is no cell and its parts are inert. -/
theorem Seq.inert_of_plain {s : Seq} (hlazy : (Value.seq s).isLazy = false)
    (hinfo : s.info = .plain) (hparts : ∀ x ∈ (Value.seq s).parts, x.Inert) :
    (Value.seq s).Inert :=
  inert_iff.2 ⟨⟨rfl, hlazy⟩, hparts, by simp [Value.metadata?, Value.info?, hinfo, Info.plain]⟩

namespace Front

def rename (ρ : Renaming) : Front → Front
  | done => done
  | item x rest => item (x.rename ρ) (rest.rename ρ)
  | entry key value rest => entry (key.rename ρ) (value.rename ρ) (rest.rename ρ)

def Inert : Front → Prop
  | done => True
  | item x rest => x.Inert ∧ (Value.seq rest).Inert
  | entry key value rest => (key.Inert ∧ value.Inert) ∧ (Value.seq rest).Inert

theorem isDone_rename (ρ : Renaming) (front : Front) :
    (front.rename ρ).isDone = front.isDone := by
  cases front <;> rfl

theorem rest_rename (ρ : Renaming) (front : Front) :
    (front.rename ρ).rest = front.rest.rename ρ := by
  cases front <;> rfl

theorem Inert.rest {front : Front} (h : front.Inert) : (Value.seq front.rest).Inert := by
  cases front with
  | done => exact Seq.inert_of_plain rfl rfl (by simp [Front.rest, Value.parts])
  | item x rest => exact h.2
  | entry key value rest => exact h.2

theorem first_mirrored {front : Front} (h : front.Inert) :
    M.Exact Value.Inert (Value.rename M.number) front.first (front.rename M.number).first := by
  cases front with
  | done => exact .pure (inert_atom rfl) rfl
  | item x rest => exact .pure h.1 rfl
  | entry key value rest =>
    have hpair : ∀ x ∈ [key, value], x.Inert := by simpa using h.1
    have hvec := (Vec.ofList_mirrored [key, value]).and_endsIn
      (Vec.ofList_endsIn M.elastic (E := fun _ => True) hpair)
    exact hvec.bind fun v hv => .pure hv rfl

end Front

theorem Slice.rename_front (ρ : Renaming) (s : Slice) (kind : ViewKind) (storage : Storage) :
    (s.front kind storage).rename ρ = (s.rename ρ).front kind (ρ storage) := by
  rw [front, front, toList_rename, rest_rename, ← Seq.ofSlice_rename]
  cases s.toList <;> rfl

theorem EntrySlice.rename_front (ρ : Renaming) (s : EntrySlice) (storage : Storage) :
    (s.front storage).rename ρ = (s.rename ρ).front (ρ storage) := by
  rw [front, front, toList_rename, rest_rename, ← Seq.ofEntries_rename]
  cases s.toList with
  | nil => rfl
  | cons entry rest => cases entry; rfl

namespace Seq

theorem inert_ofSlice {kind : ViewKind} {storage : Storage} {slice : Slice}
    (h : ∀ x ∈ slice.toList, x.Inert) : (Value.seq (ofSlice kind storage slice)).Inert :=
  ofSlice_cases (fun _ => inert_of_plain rfl rfl h)
    fun _ => inert_of_plain rfl rfl (by simp [Value.parts])

theorem inert_ofEntries {storage : Storage} {slice : EntrySlice}
    (h : ∀ x ∈ slice.flat, x.Inert) : (Value.seq (ofEntries storage slice)).Inert :=
  ofEntries_cases (fun _ => inert_of_plain rfl rfl h)
    fun _ => inert_of_plain rfl rfl (by simp [Value.parts])

variable (force force' : Force)

theorem front_mirrored (n : Nat) {s : Seq} (hs : (Value.seq s).Inert) :
    M.Exact Front.Inert (Front.rename M.number) (s.front force n)
      ((s.rename M.number).front force' n) := by
  obtain ⟨⟨-, hlazy⟩, hparts, -⟩ := inert_iff.1 hs
  cases n with
  | zero => exact .exhausted
  | succ n =>
    cases s with
    | empty info => exact .pure trivial rfl
    | cons cell x rest info =>
      exact .pure ⟨hparts x (by simp [Value.parts]), hparts _ (by simp [Value.parts])⟩ rfl
    | view kind storage slice info =>
      refine .pure ?_ (slice.rename_front M.number kind storage)
      obtain ⟨-, hfront⟩ | ⟨x, hcons, hfront⟩ := slice.front_cases kind storage
      · rw [hfront]
        trivial
      · have hitems : ∀ x ∈ slice.toList, x.Inert := hparts
        rw [hcons] at hitems
        obtain ⟨hx, hrest⟩ := List.forall_mem_cons.1 hitems
        rw [hfront]
        exact ⟨hx, inert_ofSlice hrest⟩
    | entries storage slice info =>
      refine .pure ?_ (slice.rename_front M.number storage)
      obtain ⟨-, hfront⟩ | ⟨key, value, hcons, hfront⟩ := slice.front_cases storage
      · rw [hfront]
        trivial
      · have hentry := EntrySlice.forall_toList hparts (key, value) (by simp [hcons])
        have hrest : ∀ x ∈ slice.rest.flat, x.Inert := by
          rw [slice.flat_rest]
          exact fun x hx => hparts x (List.mem_of_mem_drop hx)
        rw [hfront]
        exact ⟨hentry, inert_ofEntries hrest⟩
    | «lazy» cell info => cases hlazy

theorem isEmpty_mirrored (n : Nat) {s : Seq} (hs : (Value.seq s).Inert) :
    M.Exact (fun _ => True) id (s.isEmpty force n) ((s.rename M.number).isEmpty force' n) := by
  rw [isEmpty_eq, isEmpty_eq]
  exact (front_mirrored force force' n hs).bind fun front _ =>
    .pure trivial (front.isDone_rename M.number).symm

theorem first_mirrored (n : Nat) {s : Seq} (hs : (Value.seq s).Inert) :
    M.Exact Value.Inert (Value.rename M.number) (s.first force n)
      ((s.rename M.number).first force' n) := by
  rw [first_eq, first_eq]
  exact (front_mirrored force force' n hs).bind fun _ hfront => Front.first_mirrored hfront

theorem rest_mirrored (n : Nat) {s : Seq} (hs : (Value.seq s).Inert) :
    M.Exact (fun t => (Value.seq t).Inert) (Seq.rename M.number) (s.rest force n)
      ((s.rename M.number).rest force' n) := by
  rw [rest_eq, rest_eq]
  exact (front_mirrored force force' n hs).bind fun front hfront =>
    .pure hfront.rest (front.rest_rename M.number).symm

theorem next_mirrored (n : Nat) {s : Seq} (hs : (Value.seq s).Inert) :
    M.Exact (fun o => ∀ p ∈ o, p.1.Inert ∧ (Value.seq p.2).Inert)
      (Option.map (Prod.map (Value.rename M.number) (Seq.rename M.number)))
      (s.next force n) ((s.rename M.number).next force' n) := by
  refine (isEmpty_mirrored force force' n hs).bind fun b _ => ?_
  cases b with
  | true => exact .pure (by simp) rfl
  | false =>
    refine (first_mirrored force force' n hs).bind fun x hx => ?_
    refine (rest_mirrored force force' n hs).bind fun t ht => .pure ?_ rfl
    simpa using ⟨hx, ht⟩

/-- Both runs walk in step, so they see the ends and the differences at the same places. -/
theorem equal_mirrored {eq eq' : Comparison} (heq : Comparison.Mirrored M eq eq') (n : Nat)
    {s t : Seq} (hs : (Value.seq s).Inert) (ht : (Value.seq t).Inert) :
    M.Exact (fun _ => True) id (s.equal force eq n t)
      ((s.rename M.number).equal force' eq' n (t.rename M.number)) := by
  induction n generalizing s t with
  | zero => exact .exhausted
  | succ n ih =>
    refine (next_mirrored force force' n hs).attempt.bind fun a ha => ?_
    refine (next_mirrored force force' n ht).attempt.bind fun b hb => ?_
    rcases a with e | _ | ⟨x, s⟩ <;> rcases b with e' | _ | ⟨y, t⟩
    case ok.some.ok.some =>
      obtain ⟨hx, hs⟩ := ha _ rfl (x, s) rfl
      obtain ⟨hy, ht⟩ := hb _ rfl (y, t) rfl
      refine (heq x y hx hy).bind fun same _ => ?_
      cases same with
      | true => exact ih hs ht
      | false => exact .pure trivial rfl
    all_goals first
      | exact .pure trivial rfl
      | exact .fail _

end Seq

theorem Comparison.all_mirrored {eq eq' : Comparison} (heq : Comparison.Mirrored M eq eq')
    {xs ys : List Value} (hxs : ∀ x ∈ xs, x.Inert) (hys : ∀ y ∈ ys, y.Inert) :
    M.Exact (fun _ => True) id (eq.all xs ys)
      (eq'.all (xs.map (Value.rename M.number)) (ys.map (Value.rename M.number))) := by
  induction xs generalizing ys with
  | nil => exact .pure trivial rfl
  | cons x xs ih =>
    cases ys with
    | nil => exact .pure trivial rfl
    | cons y ys =>
      obtain ⟨hx, hxs⟩ := List.forall_mem_cons.1 hxs
      obtain ⟨hy, hys⟩ := List.forall_mem_cons.1 hys
      refine (heq x y hx hy).bind fun same _ => ?_
      cases same with
      | true => exact ih hxs hys
      | false => exact .pure trivial rfl

theorem Vec.equal_mirrored {eq eq' : Comparison} (heq : Comparison.Mirrored M eq eq') {v u : Vec}
    (hv : (Value.vector v).Inert) (hu : (Value.vector u).Inert) :
    M.Exact (fun _ => True) id (v.equal eq u)
      ((v.rename M.number).equal eq' (u.rename M.number)) := by
  simp only [equal, count_rename, items_rename]
  split
  · exact .pure trivial rfl
  · exact Comparison.all_mirrored heq (inert_vector.1 hv).1 (inert_vector.1 hu).1

/-! ## Maps -/

namespace Dict

theorem new_mirrored : M.Exact (fun _ => True) (Dict.rename M.number) Dict.new Dict.new :=
  Mirror.Follows.freshStorage.bind fun _ _ => .pure trivial rfl

theorem replace_mirrored (m : Dict) (entries : List (Value × Value)) :
    M.Exact (fun _ => True) (Dict.rename M.number) (m.replace entries)
      ((m.rename M.number).replace (entries.map (entryRename M.number))) := by
  refine Mirror.Follows.freshStorage.bind fun k _ => .pure trivial ?_
  simp [rename]

variable {eq eq' : Comparison} (heq : Comparison.Mirrored M eq eq')

include heq

theorem indexOf_mirrored {key : Value} (hkey : key.Inert) {entries : List (Value × Value)}
    (h : ∀ e ∈ entries, e.1.Inert ∧ e.2.Inert) :
    M.Exact (fun _ => True) id (indexOf eq key entries)
      (indexOf eq' (key.rename M.number) (entries.map (entryRename M.number))) := by
  induction entries with
  | nil => exact .pure trivial rfl
  | cons e entries ih =>
    obtain ⟨k, v⟩ := e
    obtain ⟨he, h⟩ := List.forall_mem_cons.1 h
    rw [List.map_cons, entryRename_mk]
    refine (heq k key he.1 hkey).bind fun found _ => ?_
    cases found with
    | true => exact .pure trivial rfl
    | false => exact (ih h).bind fun _ _ => .pure trivial rfl

theorem tryGet_mirrored {m : Dict} (hm : (Value.map m).Inert) {key : Value} (hkey : key.Inert) :
    M.Exact (fun o => ∀ v ∈ o, v.Inert) (Option.map (Value.rename M.number)) (m.tryGet eq key)
      ((m.rename M.number).tryGet eq' (key.rename M.number)) := by
  have hindex := indexOf_mirrored heq hkey (inert_map.1 hm).1
  refine Mirror.Follows.and_endsIn (P := fun _ => True) ?_ (tryGet_endsIn heq.sure hm hkey)
  unfold tryGet
  rw [entries_rename]
  refine hindex.bind fun i _ => .pure trivial ?_
  cases i with
  | none => rfl
  | some i => exact (m.valueAt?_rename i).symm

theorem set_mirrored {m : Dict} (hm : (Value.map m).Inert) {key value : Value} (hkey : key.Inert)
    (hvalue : value.Inert) : M.Exact (fun m' => (Value.map m').Inert) (Dict.rename M.number)
      (m.set eq key value)
      ((m.rename M.number).set eq' (key.rename M.number) (value.rename M.number)) := by
  have hindex := indexOf_mirrored heq.lenient hkey (inert_map.1 hm).1
  refine Mirror.Follows.and_endsIn (P := fun _ => True) ?_
    (set_endsIn M.elastic heq.sure hm hkey hvalue)
  unfold set
  rw [entries_rename]
  refine hindex.bind fun i _ => ?_
  cases i with
  | none => simpa using replace_mirrored m (m.entries ++ [(key, value)])
  | some i =>
    have hmodify : (m.entries.modify i fun e => (e.1, value)).map (entryRename M.number) =
        (m.entries.map (entryRename M.number)).modify i fun e => (e.1, value.rename M.number) := by
      apply List.ext_getElem?
      intro j
      simp only [List.getElem?_map, List.getElem?_modify]
      cases m.entries[j]? with
      | none => rfl
      | some e => by_cases hij : i = j <;> simp [hij]
    have hreplace := replace_mirrored (M := M) m (m.entries.modify i fun e => (e.1, value))
    rwa [hmodify] at hreplace

theorem add?_mirrored {m : Dict} (hm : (Value.map m).Inert) {key value : Value} (hkey : key.Inert)
    (hvalue : value.Inert) : M.Exact (fun o => ∀ m' ∈ o, (Value.map m').Inert)
      (Option.map (Dict.rename M.number)) (m.add? eq key value)
      ((m.rename M.number).add? eq' (key.rename M.number) (value.rename M.number)) := by
  have hindex := indexOf_mirrored heq hkey (inert_map.1 hm).1
  refine Mirror.Follows.and_endsIn (P := fun _ => True) ?_
    (add?_endsIn M.elastic heq.sure hm hkey hvalue)
  unfold add?
  rw [entries_rename]
  refine hindex.bind fun i _ => ?_
  cases i with
  | some i => exact .pure trivial rfl
  | none =>
    have hreplace := replace_mirrored (M := M) m (m.entries ++ [(key, value)])
    rw [List.map_append] at hreplace
    exact hreplace.bind fun _ _ => .pure trivial rfl

theorem merge_mirrored {m other : Dict} (hm : (Value.map m).Inert)
    (hother : (Value.map other).Inert) :
    M.Exact (fun m' => (Value.map m').Inert) (Dict.rename M.number) (m.merge eq other)
      ((m.rename M.number).merge eq' (other.rename M.number)) := by
  have hentries := (inert_map.1 hother).1
  have hdetached : (Value.map m.detached).Inert :=
    inert_map.2 ⟨(inert_map.1 hm).1, by simp [detached, Info.plain]⟩
  simp only [merge, isEmpty_rename]
  split
  · exact .pure hm rfl
  split
  · exact .pure hother rfl
  · rw [setAll, setAll, ← detached_rename, entries_rename, List.foldlM_map]
    refine Mirror.Follows.foldlM (fun m hm e he => ?_) hdetached
    rw [entryRename_fst, entryRename_snd]
    exact set_mirrored heq hm (hentries e he).1 (hentries e he).2

theorem mergeOption_mirrored {o : Option Dict} (ho : ∀ m ∈ o, (Value.map m).Inert) {other : Dict}
    (hother : (Value.map other).Inert) :
    M.Exact (fun o => ∀ m ∈ o, (Value.map m).Inert) (Option.map (Dict.rename M.number))
      (mergeOption eq o (some other))
      (mergeOption eq' (o.map (Dict.rename M.number)) (some (other.rename M.number))) := by
  cases o with
  | none => exact .pure (by simpa using hother) rfl
  | some m =>
    refine (merge_mirrored heq (ho m rfl) hother).bind fun m' hm' => .pure ?_ rfl
    simpa using hm'

theorem within_mirrored {other : Dict} (hother : (Value.map other).Inert)
    {entries : List (Value × Value)} (h : ∀ e ∈ entries, e.1.Inert ∧ e.2.Inert) :
    M.Exact (fun _ => True) id (within eq other entries)
      (within eq' (other.rename M.number) (entries.map (entryRename M.number))) := by
  induction entries with
  | nil => exact .pure trivial rfl
  | cons e entries ih =>
    obtain ⟨key, value⟩ := e
    obtain ⟨⟨hkey, hvalue⟩, h⟩ := List.forall_mem_cons.1 h
    rw [List.map_cons, entryRename_mk]
    refine (tryGet_mirrored heq.lenient hother hkey).bind fun o ho => ?_
    cases o with
    | none => exact .pure trivial rfl
    | some found =>
      refine (heq found value (ho found rfl) hvalue).bind fun same _ => ?_
      cases same with
      | true => exact ih h
      | false => exact .pure trivial rfl

theorem equal_mirrored {m other : Dict} (hm : (Value.map m).Inert)
    (hother : (Value.map other).Inert) :
    M.Exact (fun _ => True) id (m.equal eq other)
      ((m.rename M.number).equal eq' (other.rename M.number)) := by
  simp only [equal, same_rename M.injective, count_rename, entries_rename]
  split
  · exact .pure trivial rfl
  split
  · exact .pure trivial rfl
  · exact within_mirrored heq hother (inert_map.1 hm).1

theorem call_mirrored {m : Dict} (hm : (Value.map m).Inert) {args : List Value}
    (hargs : ∀ x ∈ args, x.Inert) :
    M.Exact Value.Inert (Value.rename M.number) (m.call eq args)
      ((m.rename M.number).call eq' (args.map (Value.rename M.number))) := by
  have hget {key default : Value} (hkey : key.Inert) (hdefault : default.Inert) :
      M.Exact Value.Inert (Value.rename M.number)
        (do let o ← m.tryGet eq key; return o.getD default)
        (do let o ← (m.rename M.number).tryGet eq' (key.rename M.number)
            return o.getD (default.rename M.number)) := by
    refine (tryGet_mirrored heq hm hkey).bind fun o ho => ?_
    cases o with
    | none => exact .pure hdefault rfl
    | some v => exact .pure (ho v rfl) rfl
  match args with
  | [] => exact .fail _
  | [key] => exact hget (hargs key (by simp)) (inert_atom rfl)
  | [key, default] => exact hget (hargs key (by simp)) (hargs default (by simp))
  | _ :: _ :: _ :: _ =>
    simp only [call, List.map_cons, List.length_cons, List.length_map]
    exact .fail _

end Dict

/-! ## Sets -/

namespace ElemSet

theorem new_mirrored : M.Exact (fun _ => True) (ElemSet.rename M.number) ElemSet.new ElemSet.new :=
  Mirror.Follows.freshStorage.bind fun _ _ => .pure trivial rfl

theorem anyM_mirrored {p p' : Value → Run Bool} {items : List Value}
    (h : ∀ x ∈ items, M.Exact (fun _ => True) id (p x) (p' (x.rename M.number))) :
    M.Exact (fun _ => True) id (anyM p items) (anyM p' (items.map (Value.rename M.number))) := by
  induction items with
  | nil => exact .pure trivial rfl
  | cons x items ih =>
    obtain ⟨hx, h⟩ := List.forall_mem_cons.1 h
    refine hx.bind fun found _ => ?_
    cases found with
    | true => exact .pure trivial rfl
    | false => exact ih h

variable {eq eq' : Comparison} (heq : Comparison.Mirrored M eq eq')

include heq

theorem tryContains_mirrored {s : ElemSet} (hs : (Value.set s).Inert) {x : Value} (hx : x.Inert) :
    M.Exact (fun _ => True) id (s.tryContains eq x)
      ((s.rename M.number).tryContains eq' (x.rename M.number)) := by
  unfold tryContains
  rw [items_rename]
  exact anyM_mirrored fun y hy => heq y x ((inert_set.1 hs).1 y hy) hx

theorem add?_mirrored {s : ElemSet} (hs : (Value.set s).Inert) {x : Value} (hx : x.Inert) :
    M.Exact (fun o => ∀ s' ∈ o, (Value.set s').Inert) (Option.map (ElemSet.rename M.number))
      (s.add? eq x) ((s.rename M.number).add? eq' (x.rename M.number)) := by
  refine Mirror.Follows.and_endsIn (P := fun _ => True) ?_ (add?_endsIn M.elastic heq.sure hs hx)
  refine (tryContains_mirrored heq hs hx).bind fun found _ => ?_
  cases found with
  | true => exact .pure trivial rfl
  | false =>
    have hreplace : M.Exact (fun _ => True) (ElemSet.rename M.number) (s.replace (s.items ++ [x]))
        ((s.rename M.number).replace ((s.rename M.number).items ++ [x.rename M.number])) := by
      refine Mirror.Follows.freshStorage.bind fun k _ => .pure trivial ?_
      simp [rename, Block.rename]
    exact hreplace.bind fun _ _ => .pure trivial rfl

theorem equal_mirrored {s other : ElemSet} (hs : (Value.set s).Inert)
    (hother : (Value.set other).Inert) :
    M.Exact (fun _ => True) id (s.equal eq other)
      ((s.rename M.number).equal eq' (other.rename M.number)) := by
  have hwithin {items : List Value} (h : ∀ x ∈ items, x.Inert) :
      M.Exact (fun _ => True) id (within eq other items)
        (within eq' (other.rename M.number) (items.map (Value.rename M.number))) := by
    induction items with
    | nil => exact .pure trivial rfl
    | cons x items ih =>
      obtain ⟨hx, h⟩ := List.forall_mem_cons.1 h
      rw [List.map_cons, within, within, items_rename]
      have hany := anyM_mirrored fun y hy => heq x y hx ((inert_set.1 hother).1 y hy)
      refine hany.bind fun found _ => ?_
      cases found with
      | true => exact ih h
      | false => exact .pure trivial rfl
  simp only [equal, count_rename, items_rename]
  split
  · exact .pure trivial rfl
  · exact hwithin (inert_set.1 hs).1

theorem call_mirrored {s : ElemSet} (hs : (Value.set s).Inert) {args : List Value}
    (hargs : ∀ x ∈ args, x.Inert) :
    M.Exact Value.Inert (Value.rename M.number) (s.call eq args)
      ((s.rename M.number).call eq' (args.map (Value.rename M.number))) := by
  match args with
  | [] => exact .fail _
  | [x] =>
    have hx := hargs x (by simp)
    refine (tryContains_mirrored heq hs hx).bind fun found _ => ?_
    cases found with
    | true => exact .pure hx rfl
    | false => exact .pure (inert_atom rfl) rfl
  | _ :: _ :: _ =>
    simp only [call, List.map_cons, List.length_cons, List.length_map]
    exact .fail _

end ElemSet

theorem Vec.call_mirrored {v : Vec} (hv : (Value.vector v).Inert) (args : List Value) :
    M.Exact Value.Inert (Value.rename M.number) (v.call args)
      ((v.rename M.number).call (args.map (Value.rename M.number))) := by
  refine Mirror.Follows.and_endsIn (P := fun _ => True) ?_ (call_endsIn hv args)
  match args with
  | [] => exact .fail _
  | [index] =>
    simp only [call, List.map_cons, List.map_nil, Value.asInt_rename, nth_rename]
    cases index.asInt with
    | error e => exact .fail e
    | ok i => exact .ofExcept fun _ _ => trivial
  | _ :: _ :: _ =>
    simp only [call, List.map_cons, List.length_cons, List.length_map]
    exact .fail _

/-! ## Equality, metadata and text -/

theorem Value.equals_mirrored (force force' : Force) (n : Nat) :
    Comparison.Mirrored M (equals force n) (equals force' n) := by
  induction n with
  | zero => exact fun a b _ _ => .exhausted
  | succ n ih =>
    intro a b ha hb
    have hseq {v : Vec} (hv : (vector v).Inert) : (seq v.seq).Inert :=
      Seq.inert_ofSlice (inert_vector.1 hv).1
    cases a <;> cases b
    case vector.vector v u => exact Vec.equal_mirrored ih ha hb
    case map.map m other => exact Dict.equal_mirrored ih ha hb
    case set.set s other => exact ElemSet.equal_mirrored ih ha hb
    case vector.seq v t =>
      have h := Seq.equal_mirrored force force' ih n (hseq ha) hb
      rwa [← Vec.seq_rename] at h
    case seq.vector s v =>
      have h := Seq.equal_mirrored force force' ih n ha (hseq hb)
      rwa [← Vec.seq_rename] at h
    case seq.seq s t =>
      simp only [rename, equals, Seq.same_rename M.injective]
      split
      · exact .pure trivial rfl
      · exact Seq.equal_mirrored force force' ih n ha hb
    all_goals exact .pure trivial rfl

theorem Value.withMeta_mirrored {eq eq' : Comparison} (heq : Comparison.Mirrored M eq eq')
    {v : Value} (hv : v.Inert) {metadata : Dict} (hmetadata : (map metadata).Inert) :
    M.Exact Value.Inert (Value.rename M.number) (v.withMeta eq metadata)
      ((v.rename M.number).withMeta eq' (metadata.rename M.number)) := by
  refine Mirror.Follows.and_endsIn (P := fun _ => True) ?_
    (withMeta_endsIn M.elastic heq.sure hv hmetadata trivial)
  unfold withMeta
  rw [info?_rename, typeName_rename]
  cases hinfo : v.info? with
  | none => exact .fail _
  | some info =>
    have hold : ∀ m ∈ info.metadata, (map m).Inert := by
      intro m hm
      apply (inert_iff.1 hv).2.2
      rw [metadata?, hinfo]
      exact hm
    have hmerged := Dict.mergeOption_mirrored heq hold hmetadata
    rw [← Info.metadata_rename] at hmerged
    have hwith : M.Exact (fun _ => True) (Info.rename M.number) (info.withMeta eq metadata)
        ((info.rename M.number).withMeta eq' (metadata.rename M.number)) := by
      refine hmerged.bind fun o _ => .pure trivial ?_
      simp [Info.rename]
    exact hwith.bind fun i _ => .pure trivial (v.withInfo_rename i)

theorem Excerpt.ofList_mirrored {α : Type} {f : α → α} {write write' : α → Run String} {xs : List α}
    (h : ∀ x ∈ xs, M.Exact (fun _ => True) id (write x) (write' (f x))) (limit : Option Nat) :
    M.Exact (fun _ => True) id (ofList write limit xs) (ofList write' limit (xs.map f)) := by
  induction xs generalizing limit with
  | nil => exact .pure trivial rfl
  | cons x xs ih =>
    obtain ⟨hx, h⟩ := List.forall_mem_cons.1 h
    rcases limit with _ | _ | limit
    · exact hx.bind fun _ _ => (ih h _).bind fun _ _ => .pure trivial rfl
    · exact .pure trivial rfl
    · exact hx.bind fun _ _ => (ih h _).bind fun _ _ => .pure trivial rfl

theorem Excerpt.ofSeq_mirrored (force force' : Force) {write write' : Value → Run String}
    (h : ∀ x, x.Inert → M.Exact (fun _ => True) id (write x) (write' (x.rename M.number)))
    (n : Nat) (limit : Option Nat) {s : Seq} (hs : (Value.seq s).Inert) :
    M.Exact (fun _ => True) id (ofSeq force write n limit s)
      (ofSeq force' write' n limit (s.rename M.number)) := by
  induction n generalizing limit s with
  | zero => exact .exhausted
  | succ n ih =>
    refine (Seq.next_mirrored force force' n hs).attempt.bind fun r hr => ?_
    rcases r with e | _ | ⟨x, rest⟩ <;> rcases limit with _ | _ | limit
    all_goals first
      | exact .pure trivial rfl
      | exact .fail _
      | skip
    all_goals
      obtain ⟨hx, hrest⟩ := hr _ rfl (x, rest) rfl
      exact (h x hx).bind fun _ _ => (ih _ hrest).bind fun _ _ => .pure trivial rfl

theorem Value.render_mirrored (force force' : Force) (escape : Bool) (n : Nat) {v : Value}
    (hv : v.Inert) : M.Exact (fun _ => True) id (v.render force escape n)
      ((v.rename M.number).render force' escape n) := by
  induction n generalizing v with
  | zero => exact .exhausted
  | succ n ih =>
    have hlimit : M.Exact (fun _ => True) id (Run.gets World.printLength)
        (Run.gets World.printLength) := .gets fun w hw => ⟨trivial, M.printLength hw⟩
    refine hlimit.bind fun limit _ => ?_
    cases v with
    | atom a => exact .pure trivial rfl
    | vector v =>
      have hitems := Excerpt.ofList_mirrored (fun x hx => ih ((inert_vector.1 hv).1 x hx)) limit
      rw [← Vec.items_rename] at hitems
      exact hitems.bind fun _ _ => .pure trivial rfl
    | map m =>
      simp only [rename, Dict.entries_rename]
      refine (Excerpt.ofList_mirrored (fun e he => ?_) limit).bind fun _ _ => .pure trivial rfl
      obtain ⟨hkey, hvalue⟩ := (inert_map.1 hv).1 e he
      rw [entryRename_fst, entryRename_snd]
      exact (ih hkey).bind fun _ _ => (ih hvalue).bind fun _ _ => .pure trivial rfl
    | set s =>
      have hitems := Excerpt.ofList_mirrored (fun x hx => ih ((inert_set.1 hv).1 x hx)) limit
      rw [← ElemSet.items_rename] at hitems
      exact hitems.bind fun _ _ => .pure trivial rfl
    | seq s =>
      have hitems := Excerpt.ofSeq_mirrored force force' (fun x hx => ih hx) n limit hv
      exact hitems.bind fun _ _ => .pure trivial rfl

theorem Value.display_mirrored (force force' : Force) (escape : Bool) (n : Nat) {v : Value}
    (hv : v.Inert) : M.Exact (fun _ => True) id (v.display force escape n)
      ((v.rename M.number).display force' escape n) := by
  refine (render_mirrored force force' escape n hv).attempt.bind fun r _ => ?_
  cases r with
  | ok text => exact .pure trivial rfl
  | error e => exact .pure trivial rfl

end LispKernel
