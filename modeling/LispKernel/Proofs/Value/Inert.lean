import LispKernel.Metadata
import LispKernel.Proofs.Render.Text

/-!
# Values that start nothing

A value is inert if neither a procedure nor a lazy cell is anywhere in it or in its metadata. What
the operations of the evaluator make of inert values is inert again. Comparing such values never
fails, and so the errors of an operation are those that it raises itself.
-/
namespace LispKernel

open Run (EndsIn)

namespace Value

/-- The first value is somewhere in the second, or in its metadata. -/
inductive Within : Value → Value → Prop where
  | self (v : Value) : Within v v
  | part {x y v : Value} : y ∈ v.parts → Within x y → Within x v
  | metadata {x v : Value} {m : Dict} : m ∈ v.metadata? → Within x (map m) → Within x v

def isProc : Value → Bool
  | proc _ => true
  | _ => false

/-- There is no procedure and no lazy cell in the value. -/
def Inert (v : Value) : Prop := ∀ x, Within x v → x.isProc = false ∧ x.isLazy = false

theorem inert_iff {v : Value} : v.Inert ↔ (v.isProc = false ∧ v.isLazy = false) ∧
    (∀ x ∈ v.parts, x.Inert) ∧ ∀ m ∈ v.metadata?, (map m).Inert := by
  constructor
  · intro h
    exact ⟨h v (.self v), fun x hx y hy => h y (.part hx hy),
      fun m hm y hy => h y (.metadata hm hy)⟩
  · rintro ⟨hself, hparts, hmetadata⟩ x hx
    cases hx with
    | self => exact hself
    | part hy hx => exact hparts _ hy x hx
    | metadata hm hx => exact hmetadata _ hm x hx

theorem Inert.lazyFree {v : Value} (h : v.Inert) : v.LazyFree := by
  intro x hx
  induction hx with
  | self => exact (inert_iff.1 h).1.2
  | part hy _ ih => exact ih ((inert_iff.1 h).2.1 _ hy)

theorem inert_atom {a : Atom} (h : (atom a).isProc = false) : (atom a).Inert :=
  inert_iff.2 ⟨⟨h, rfl⟩, by simp [parts], by simp [metadata?, info?]⟩

theorem inert_vector {v : Vec} : (vector v).Inert ↔
    (∀ x ∈ v.items, x.Inert) ∧ ∀ m ∈ v.info.metadata, (map m).Inert :=
  inert_iff.trans (and_iff_right ⟨rfl, rfl⟩)

theorem inert_set {s : ElemSet} : (set s).Inert ↔
    (∀ x ∈ s.items, x.Inert) ∧ ∀ m ∈ s.info.metadata, (map m).Inert :=
  inert_iff.trans (and_iff_right ⟨rfl, rfl⟩)

theorem inert_map {m : Dict} : (map m).Inert ↔
    (∀ e ∈ m.entries, e.1.Inert ∧ e.2.Inert) ∧ ∀ d ∈ m.info.metadata, (map d).Inert := by
  have hentries : (∀ x ∈ (map m).parts, x.Inert) ↔ ∀ e ∈ m.entries, e.1.Inert ∧ e.2.Inert := by
    constructor
    · exact forall_entries
    · intro h x hx
      obtain ⟨e, he, hx⟩ := List.mem_flatMap.1 hx
      rcases List.mem_pair.1 hx with rfl | rfl
      · exact (h e he).1
      · exact (h e he).2
  rw [inert_iff, hentries, and_iff_right ⟨rfl, rfl⟩]
  rfl

/-- Another position or other metadata leaves the parts as they are. -/
theorem Inert.withInfo {v : Value} (h : v.Inert) {info : Info}
    (hinfo : ∀ m ∈ info.metadata, (map m).Inert) : (v.withInfo info).Inert := by
  obtain ⟨⟨hproc, hlazy⟩, hparts, -⟩ := inert_iff.1 h
  cases v with
  | atom a => exact h
  | seq s =>
    cases s with
    | «lazy» cell i => cases hlazy
    | _ => exact inert_iff.2 ⟨⟨rfl, rfl⟩, hparts, hinfo⟩
  | _ => exact inert_iff.2 ⟨⟨rfl, rfl⟩, hparts, hinfo⟩

end Value

open Value (Inert inert_iff inert_vector inert_set inert_map)

/-- Comparing inert values keeps the invariant and fails at most with the given errors. -/
def Comparison.Sure (I : World → Prop) (E : Error → Prop) (eq : Comparison) : Prop :=
  ∀ a b, a.Inert → b.Inert → (eq a b).EndsIn I (fun _ => True) E

theorem Value.equals_sure (force : Force) {I : World → Prop} (hI : Elastic I) (E : Error → Prop)
    (n : Nat) : Comparison.Sure I E (equals force n) :=
  fun _ _ ha hb => equals_endsIn force hI ha.lazyFree hb.lazyFree n

theorem Value.display_endsIn (force : Force) {I : World → Prop} (hI : Elastic I) {E : Error → Prop}
    (n : Nat) {v : Value} (hv : v.Inert) :
    (v.display force false n).EndsIn I (fun _ => True) E := by
  have hrender := render_endsIn false force hI (E := fun _ => True) hv.lazyFree n
  refine hrender.attempt.bind fun r _ => ?_
  cases r with
  | ok text => exact .pure trivial
  | error e => exact .pure trivial

variable {I : World → Prop} {E : Error → Prop} {eq : Comparison}

/-! ## Vectors -/

theorem Vec.ofList_endsIn (hI : Elastic I) {items : List Value} (h : ∀ x ∈ items, x.Inert) :
    (ofList items).EndsIn I (fun v => (Value.vector v).Inert) E := by
  refine (EndsIn.freshStorage hI).bind fun k _ => .pure ?_
  exact inert_vector.2 ⟨h, by simp [Info.plain]⟩

/-! ## Maps -/

namespace Dict

theorem new_endsIn (hI : Elastic I) : Dict.new.EndsIn I (fun m => (Value.map m).Inert) E := by
  refine (EndsIn.freshStorage hI).bind fun k _ => .pure ?_
  exact inert_map.2 ⟨by simp, by simp [Info.plain]⟩

theorem replace_endsIn (hI : Elastic I) {m : Dict} (hm : (Value.map m).Inert)
    {entries : List (Value × Value)} (h : ∀ e ∈ entries, e.1.Inert ∧ e.2.Inert) :
    (m.replace entries).EndsIn I (fun m' => (Value.map m').Inert) E := by
  refine (EndsIn.freshStorage hI).bind fun k _ => .pure ?_
  exact inert_map.2 ⟨h, (inert_map.1 hm).2⟩

theorem inert_append {m : Dict} (hm : (Value.map m).Inert) {key value : Value} (hkey : key.Inert)
    (hvalue : value.Inert) : ∀ e ∈ m.entries ++ [(key, value)], e.1.Inert ∧ e.2.Inert := by
  intro e he
  rcases List.mem_append.1 he with he | he
  · exact (inert_map.1 hm).1 e he
  · rw [List.mem_singleton.1 he]
    exact ⟨hkey, hvalue⟩

theorem inert_modify {m : Dict} (hm : (Value.map m).Inert) {value : Value} (hvalue : value.Inert)
    (i : Nat) : ∀ e ∈ m.entries.modify i fun e => (e.1, value), e.1.Inert ∧ e.2.Inert := by
  intro e he
  obtain ⟨j, hj⟩ := List.mem_iff_getElem?.1 he
  rw [List.getElem?_modify] at hj
  obtain ⟨e', he', rfl⟩ := Option.map_eq_some_iff.1 hj
  have hinert := (inert_map.1 hm).1 e' (List.mem_of_getElem? he')
  by_cases hij : i = j
  · rw [if_pos hij]
    exact ⟨hinert.1, hvalue⟩
  · rw [if_neg hij]
    exact hinert

theorem indexOf_endsIn (heq : eq.Sure I E) {key : Value} (hkey : key.Inert)
    {entries : List (Value × Value)} (h : ∀ e ∈ entries, e.1.Inert ∧ e.2.Inert) :
    (indexOf eq key entries).EndsIn I (fun _ => True) E := by
  induction entries with
  | nil => exact .pure trivial
  | cons e entries ih =>
    obtain ⟨he, h⟩ := List.forall_mem_cons.1 h
    refine (heq e.1 key he.1 hkey).bind fun found _ => ?_
    cases found with
    | true => exact .pure trivial
    | false => exact (ih h).bind fun _ _ => .pure trivial

theorem tryGet_endsIn (heq : eq.Sure I E) {m : Dict} (hm : (Value.map m).Inert) {key : Value}
    (hkey : key.Inert) : (m.tryGet eq key).EndsIn I (fun o => ∀ v ∈ o, v.Inert) E := by
  have hentries := (inert_map.1 hm).1
  refine (indexOf_endsIn heq hkey hentries).bind fun i _ => .pure ?_
  intro v hv
  obtain ⟨i, -, hi⟩ := Option.bind_eq_some_iff.1 hv
  obtain ⟨e, he, rfl⟩ := Option.map_eq_some_iff.1 hi
  exact (hentries e (List.mem_of_getElem? he)).2

section

variable (hI : Elastic I) (heq : eq.Sure I E)

include hI heq

theorem set_endsIn {m : Dict} (hm : (Value.map m).Inert) {key value : Value} (hkey : key.Inert)
    (hvalue : value.Inert) : (m.set eq key value).EndsIn I (fun m' => (Value.map m').Inert) E := by
  have hlenient : eq.lenient.Sure I E := fun a b ha hb => (heq a b ha hb).lenient
  refine (indexOf_endsIn hlenient hkey (inert_map.1 hm).1).bind fun i _ => ?_
  cases i with
  | some i => exact replace_endsIn hI hm (inert_modify hm hvalue i)
  | none => exact replace_endsIn hI hm (inert_append hm hkey hvalue)

theorem add?_endsIn {m : Dict} (hm : (Value.map m).Inert) {key value : Value} (hkey : key.Inert)
    (hvalue : value.Inert) :
    (m.add? eq key value).EndsIn I (fun o => ∀ m' ∈ o, (Value.map m').Inert) E := by
  refine (indexOf_endsIn heq hkey (inert_map.1 hm).1).bind fun i _ => ?_
  cases i with
  | some i => exact .pure (by simp)
  | none =>
    refine (replace_endsIn hI hm (inert_append hm hkey hvalue)).bind fun m' hm' => .pure ?_
    simpa using hm'

theorem merge_endsIn {m other : Dict} (hm : (Value.map m).Inert)
    (hother : (Value.map other).Inert) :
    (m.merge eq other).EndsIn I (fun m' => (Value.map m').Inert) E := by
  have hentries := (inert_map.1 hother).1
  unfold merge
  by_cases hempty : other.isEmpty
  · rw [if_pos hempty]
    exact .pure hm
  by_cases hempty' : m.isEmpty
  · rw [if_neg hempty, if_pos hempty']
    exact .pure hother
  · rw [if_neg hempty, if_neg hempty']
    apply EndsIn.foldlM fun m hm e he => set_endsIn hI heq hm (hentries e he).1 (hentries e he).2
    exact inert_map.2 ⟨(inert_map.1 hm).1, by simp [detached, Info.plain]⟩

end

end Dict

/-- Metadata is merged into that of a collection; other values have none. -/
theorem Value.withMeta_endsIn (hI : Elastic I) (heq : eq.Sure I E) {v : Value} (hv : v.Inert)
    {metadata : Dict} (hmetadata : (map metadata).Inert) (hE : E (.metaUnsupported v.typeName)) :
    (v.withMeta eq metadata).EndsIn I Inert E := by
  unfold withMeta
  cases hinfo : v.info? with
  | none => exact .fail hE
  | some info =>
    have hold : ∀ m ∈ info.metadata, (map m).Inert := by
      intro m hm
      apply (inert_iff.1 hv).2.2
      rw [metadata?, hinfo]
      exact hm
    have hmerged : (Dict.mergeOption eq info.metadata (some metadata)).EndsIn I
        (fun o => ∀ m ∈ o, (map m).Inert) E := by
      cases hm : info.metadata with
      | none => exact .pure (by simpa using hmetadata)
      | some m =>
        refine (Dict.merge_endsIn hI heq (hold m hm) hmetadata).bind fun m' hm' => .pure ?_
        simpa using hm'
    refine (hmerged.bind fun o ho => .pure ?_).bind fun info' hinfo' => .pure (hv.withInfo hinfo')
    exact ho

/-! ## Sets -/

namespace ElemSet

theorem new_endsIn (hI : Elastic I) : ElemSet.new.EndsIn I (fun s => (Value.set s).Inert) E := by
  refine (EndsIn.freshStorage hI).bind fun k _ => .pure ?_
  exact inert_set.2 ⟨by simp [items], by simp [Info.plain]⟩

theorem replace_endsIn (hI : Elastic I) {s : ElemSet} (hs : (Value.set s).Inert)
    {items : List Value} (h : ∀ x ∈ items, x.Inert) :
    (s.replace items).EndsIn I (fun s' => (Value.set s').Inert) E := by
  refine (EndsIn.freshStorage hI).bind fun k _ => .pure ?_
  exact inert_set.2 ⟨h, (inert_set.1 hs).2⟩

theorem tryContains_endsIn (heq : eq.Sure I E) {s : ElemSet} (hs : (Value.set s).Inert) {x : Value}
    (hx : x.Inert) : (s.tryContains eq x).EndsIn I (fun _ => True) E := by
  have hany {items : List Value} (h : ∀ y ∈ items, y.Inert) :
      (anyM (fun item => eq item x) items).EndsIn I (fun _ => True) E := by
    induction items with
    | nil => exact .pure trivial
    | cons y items ih =>
      obtain ⟨hy, h⟩ := List.forall_mem_cons.1 h
      refine (heq y x hy hx).bind fun found _ => ?_
      cases found with
      | true => exact .pure trivial
      | false => exact ih h
  exact hany (inert_set.1 hs).1

theorem add?_endsIn (hI : Elastic I) (heq : eq.Sure I E) {s : ElemSet} (hs : (Value.set s).Inert)
    {x : Value} (hx : x.Inert) :
    (s.add? eq x).EndsIn I (fun o => ∀ s' ∈ o, (Value.set s').Inert) E := by
  refine (tryContains_endsIn heq hs hx).bind fun found _ => ?_
  cases found with
  | true => exact .pure (by simp)
  | false =>
    have hitems : ∀ y ∈ s.items ++ [x], y.Inert := by
      simpa [or_imp, forall_and] using ⟨(inert_set.1 hs).1, hx⟩
    refine (replace_endsIn hI hs hitems).bind fun s' hs' => .pure ?_
    simpa using hs'

end ElemSet

/-! ## Calls -/

/-- What calling a collection fails with. -/
def Error.OfCall : Error → Prop
  | arity .. | indexOutOfRange .. | typeMismatch _ _ none => True
  | _ => False

theorem Dict.call_endsIn (heq : eq.Sure I Error.OfCall) {m : Dict} (hm : (Value.map m).Inert)
    {args : List Value} (hargs : ∀ x ∈ args, x.Inert) :
    (m.call eq args).EndsIn I Inert Error.OfCall := by
  have hget {key default : Value} (hkey : key.Inert) (hdefault : default.Inert) :
      Run.EndsIn I (do return (← m.tryGet eq key).getD default) Inert Error.OfCall := by
    refine (tryGet_endsIn heq hm hkey).bind fun o ho => .pure ?_
    cases o with
    | none => exact hdefault
    | some v => exact ho v rfl
  match args with
  | [] => exact .fail trivial
  | [key] => exact hget (hargs key (by simp)) (Value.inert_atom rfl)
  | [key, default] => exact hget (hargs key (by simp)) (hargs default (by simp))
  | _ :: _ :: _ :: _ => exact .fail trivial

theorem Vec.call_endsIn {v : Vec} (hv : (Value.vector v).Inert) (args : List Value) :
    (v.call args).EndsIn I Inert Error.OfCall := by
  match args with
  | [] => exact .fail trivial
  | _ :: _ :: _ => exact .fail trivial
  | [x] =>
    have hint : (Run.ofExcept x.asInt).EndsIn I (fun _ => True) Error.OfCall := by
      apply EndsIn.ofExcept
      cases x with
      | atom a => cases a <;> trivial
      | _ => trivial
    refine hint.ofExcept_bind fun index _ => ?_
    have hcheck : (Run.ofExcept (v.checkIndex index)).EndsIn I (fun _ => True) Error.OfCall := by
      apply EndsIn.ofExcept
      unfold checkIndex
      split_ifs <;> trivial
    refine hcheck.ofExcept_bind fun i _ => ?_
    cases hx : v.get? i with
    | none => exact .fail trivial
    | some x => exact .pure ((inert_vector.1 hv).1 x (List.mem_of_getElem? hx))

theorem ElemSet.call_endsIn (heq : eq.Sure I Error.OfCall) {s : ElemSet}
    (hs : (Value.set s).Inert) {args : List Value} (hargs : ∀ x ∈ args, x.Inert) :
    (s.call eq args).EndsIn I Inert Error.OfCall := by
  match args with
  | [] => exact .fail trivial
  | _ :: _ :: _ => exact .fail trivial
  | [x] =>
    have hx := hargs x (by simp)
    refine (tryContains_endsIn heq hs hx).bind fun found _ => .pure ?_
    cases found with
    | true => exact hx
    | false => exact Value.inert_atom rfl

end LispKernel
