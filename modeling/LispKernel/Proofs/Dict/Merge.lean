import LispKernel.Metadata
import LispKernel.Proofs.Dict.FiniteMap
import LispKernel.Proofs.Refinement.Machine

/-!
# Merging maps

On maps that were built with lawful keys, merging is associative down to the order of the entries
and to the form in which a key is kept, and an empty map changes nothing. So the metadata of a value
to which two maps are attached is that of the value to which they are attached as one.
-/
namespace LispKernel

open Run (ReturnsIn Settles Refines)
open Table (Keyed putAll)
open Value (Lawful Fits agree)

/-! ## Attached metadata -/

namespace Value

/-- A value without metadata counts as one with an empty map. -/
def metadataEntries (v : Value) : List (Value × Value) :=
  (v.metadata?.map Dict.entries).getD []

/-- The second value is the first with the given entries for metadata. -/
structure Annotated (v : Value) (entries : List (Value × Value)) (v' : Value) : Prop where
  metadata : ∃ m, v'.metadata? = some m ∧ m.entries = entries
  position : v'.position? = v.position?
  rest (info : Info) : v'.withInfo info = v.withInfo info

theorem info?_withInfo {v : Value} (h : v.info?.isSome) (info : Info) :
    (v.withInfo info).info? = some info := by
  cases v with
  | atom a => cases h
  | seq s => cases s <;> rfl
  | _ => rfl

theorem withInfo_withInfo (v : Value) (info info' : Info) :
    (v.withInfo info).withInfo info' = v.withInfo info' := by
  cases v with
  | seq s => cases s <;> rfl
  | _ => rfl

namespace Annotated

variable {v v' v'' : Value} {entries entries' : List (Value × Value)}

theorem metadataEntries_eq (h : v.Annotated entries v') : v'.metadataEntries = entries := by
  obtain ⟨m, hm, rfl⟩ := h.metadata
  simp [metadataEntries, hm]

theorem info?_isSome (h : v.Annotated entries v') : v'.info?.isSome := by
  obtain ⟨m, hm, -⟩ := h.metadata
  obtain ⟨info, hinfo, -⟩ := Option.bind_eq_some_iff.1 hm
  simp [hinfo]

theorem trans (h : v.Annotated entries v') (h' : v'.Annotated entries' v'') :
    v.Annotated entries' v'' :=
  ⟨h'.metadata, h'.position.trans h.position, fun info => (h'.rest info).trans (h.rest info)⟩

theorem of_withInfo (hv : v.info?.isSome) {info : Info} {m : Dict} (hm : info.metadata = some m)
    (hposition : info.position = v.position?) : v.Annotated m.entries (v.withInfo info) where
  metadata := ⟨m, by rw [metadata?, info?_withInfo hv, Option.bind_some, hm], rfl⟩
  position := by rw [position?, info?_withInfo hv, Option.bind_some, hposition]
  rest := v.withInfo_withInfo info

end Annotated

end Value

/-! ## What repeated merging returns -/

section Returns

variable {I : World → Prop} {eq : Comparison} {C : Value → Prop} {p : Test} (hI : Elastic I)
  (heq : eq.Decides I C p) {a b c : Dict}

include hI heq

theorem Dict.merge_returns_keyed (ha : Keyed C p a.entries) (hb : Keyed C p b.entries) :
    (a.merge eq b).ReturnsIn I (·.entries = putAll p a.entries b.entries) :=
  Dict.merge_returns hI heq ha.keys hb.keys hb.distinct

theorem Dict.merge_merge_returns (ha : Keyed C p a.entries) (hb : Keyed C p b.entries)
    (hc : Keyed C p c.entries) : ReturnsIn I (do (← a.merge eq b).merge eq c)
      (·.entries = putAll p (putAll p a.entries b.entries) c.entries) := by
  refine (merge_returns_keyed hI heq ha hb).bind fun m hm => ?_
  rw [← hm]
  exact merge_returns_keyed hI heq (hm ▸ ha.putAll hb) hc

theorem Dict.merge_of_merge_returns (ha : Keyed C p a.entries) (hb : Keyed C p b.entries)
    (hc : Keyed C p c.entries) : ReturnsIn I (do a.merge eq (← b.merge eq c))
      (·.entries = putAll p a.entries (putAll p b.entries c.entries)) := by
  refine (merge_returns_keyed hI heq hb hc).bind fun m hm => ?_
  rw [← hm]
  exact merge_returns_keyed hI heq ha (hm ▸ hb.putAll hc)

namespace Value

variable {v : Value} (hv : v.info?.isSome) (hmeta : Keyed C p v.metadataEntries)

include hv hmeta

theorem withMeta_returns (ha : Keyed C p a.entries) :
    (v.withMeta eq a).ReturnsIn I (v.Annotated (putAll p v.metadataEntries a.entries)) := by
  obtain ⟨info, hinfo⟩ := Option.isSome_iff_exists.1 hv
  have hposition : info.position = v.position? := by simp [position?, hinfo]
  have hmetadata : v.metadata? = info.metadata := by simp [metadata?, hinfo]
  have hmerged : (Dict.mergeOption eq info.metadata (some a)).ReturnsIn I fun merged =>
      ∃ m, merged = some m ∧ m.entries = putAll p v.metadataEntries a.entries := by
    unfold metadataEntries at hmeta ⊢
    rw [hmetadata] at hmeta ⊢
    cases hold : info.metadata with
    | none => exact .pure ⟨a, rfl, (Table.putAll_nil ha.distinct).symm⟩
    | some old =>
      rw [hold] at hmeta
      exact (Dict.merge_returns_keyed hI heq hmeta ha).bind fun m hm => .pure ⟨m, rfl, hm⟩
  unfold withMeta Info.withMeta
  simp only [hinfo]
  refine (hmerged.bind (Q := fun info' => info'.position = info.position ∧
    ∃ m, info'.metadata = some m ∧ m.entries = putAll p v.metadataEntries a.entries)
      fun merged hmerged => .pure ⟨rfl, hmerged⟩).bind ?_
  rintro info' ⟨hkept, m, hm, hentries⟩
  exact .pure (hentries ▸ .of_withInfo hv hm (hkept.trans hposition))

theorem withMeta_withMeta_returns (ha : Keyed C p a.entries) (hb : Keyed C p b.entries) :
    ReturnsIn I (do (← v.withMeta eq a).withMeta eq b)
      (v.Annotated (putAll p (putAll p v.metadataEntries a.entries) b.entries)) := by
  refine (withMeta_returns hI heq hv hmeta ha).bind fun v' hv' => ?_
  rw [← hv'.metadataEntries_eq]
  refine (withMeta_returns hI heq hv'.info?_isSome ?_ hb).mono fun v'' => hv'.trans
  exact hv'.metadataEntries_eq ▸ hmeta.putAll ha

theorem withMeta_merge_returns (ha : Keyed C p a.entries) (hb : Keyed C p b.entries) :
    ReturnsIn I (do v.withMeta eq (← a.merge eq b))
      (v.Annotated (putAll p v.metadataEntries (putAll p a.entries b.entries))) := by
  refine (Dict.merge_returns_keyed hI heq ha hb).bind fun m hm => ?_
  rw [← hm]
  exact withMeta_returns hI heq hv hmeta (hm ▸ ha.putAll hb)

end Value

end Returns

/-! ## The laws of merging -/

namespace Dict

variable {σ : Store} {m : Dict}

theorem Built.keyed (h : m.Built (Lawful σ)) : Keyed (Lawful σ) agree m.entries :=
  ⟨h.keys, h.distinct⟩

end Dict

theorem Table.Keyed.fits {σ : Store} {entries : List (Value × Value)} {n : Nat}
    (h : Keyed (Lawful σ) agree entries) (hn : entriesWeight entries ≤ n) :
    Keyed (Fits n) agree entries :=
  ⟨Dict.keys_fit h.keys hn, h.distinct⟩

theorem Value.metadataEntries_keyed {σ : Store} {v : Value}
    (h : ∀ m ∈ v.metadata?, m.Built (Lawful σ)) : Keyed (Lawful σ) agree v.metadataEntries := by
  unfold metadataEntries
  cases hm : v.metadata? with
  | none => exact .nil
  | some m => exact (h m hm).keyed

namespace Dict

section Settles

variable (force : Force) {σ : Store} {a b c : Dict} (ha : Keyed (Lawful σ) agree a.entries)
  (hb : Keyed (Lawful σ) agree b.entries)

include ha hb

theorem merge_merge_settles (hc : Keyed (Lawful σ) agree c.entries) :
    Settles (fun n => do (← a.merge (Value.equals force n) b).merge (Value.equals force n) c)
      (·.entries = putAll agree a.entries (putAll agree b.entries c.entries)) := by
  refine Value.settles_of_decides force (x := fun eq => do (← a.merge eq b).merge eq c)
    (N := entriesWeight a.entries + entriesWeight b.entries + entriesWeight c.entries)
    (fun heq => Refines.any.bind (merge_congr Refines.any heq a b) fun m =>
      merge_congr Refines.any heq m c) ?_
  intro n hn I eq hI heq
  rw [← Table.putAll_assoc (Value.agree_partialEquivalence σ) ha hb hc]
  exact merge_merge_returns hI heq (ha.fits (by omega)) (hb.fits (by omega)) (hc.fits (by omega))

theorem merge_of_merge_settles (hc : Keyed (Lawful σ) agree c.entries) :
    Settles (fun n => do a.merge (Value.equals force n) (← b.merge (Value.equals force n) c))
      (·.entries = putAll agree a.entries (putAll agree b.entries c.entries)) := by
  refine Value.settles_of_decides force (x := fun eq => do a.merge eq (← b.merge eq c))
    (N := entriesWeight a.entries + entriesWeight b.entries + entriesWeight c.entries)
    (fun heq => Refines.any.bind (merge_congr Refines.any heq b c) fun m =>
      merge_congr Refines.any heq a m) ?_
  intro n hn I eq hI heq
  exact merge_of_merge_returns hI heq (ha.fits (by omega)) (hb.fits (by omega))
    (hc.fits (by omega))

variable {v : Value} (hv : v.info?.isSome) (hmeta : Keyed (Lawful σ) agree v.metadataEntries)

include hv hmeta

theorem withMeta_withMeta_settles :
    Settles (fun n => do
        (← v.withMeta (Value.equals force n) a).withMeta (Value.equals force n) b)
      (v.Annotated (putAll agree v.metadataEntries (putAll agree a.entries b.entries))) := by
  refine Value.settles_of_decides force (x := fun eq => do (← v.withMeta eq a).withMeta eq b)
    (N := entriesWeight a.entries + entriesWeight b.entries + entriesWeight v.metadataEntries)
    (fun heq => Refines.any.bind (Value.withMeta_congr Refines.any heq v a) fun v' =>
      Value.withMeta_congr Refines.any heq v' b) ?_
  intro n hn I eq hI heq
  rw [← Table.putAll_assoc (Value.agree_partialEquivalence σ) hmeta ha hb]
  exact Value.withMeta_withMeta_returns hI heq hv (hmeta.fits (by omega)) (ha.fits (by omega))
    (hb.fits (by omega))

theorem withMeta_merge_settles :
    Settles (fun n => do
        v.withMeta (Value.equals force n) (← a.merge (Value.equals force n) b))
      (v.Annotated (putAll agree v.metadataEntries (putAll agree a.entries b.entries))) := by
  refine Value.settles_of_decides force (x := fun eq => do v.withMeta eq (← a.merge eq b))
    (N := entriesWeight a.entries + entriesWeight b.entries + entriesWeight v.metadataEntries)
    (fun heq => Refines.any.bind (merge_congr Refines.any heq a b) fun m =>
      Value.withMeta_congr Refines.any heq v m) ?_
  intro n hn I eq hI heq
  exact Value.withMeta_merge_returns hI heq hv (hmeta.fits (by omega)) (ha.fits (by omega))
    (hb.fits (by omega))

end Settles

theorem merge_empty_settles (force : Force) (m : Dict) {e : Dict} (he : e.isEmpty = true) :
    Settles (fun n => m.merge (Value.equals force n) e) (· = m) := by
  have hmerge (eq : Comparison) : m.merge eq e = pure m := if_pos he
  simp only [hmerge]
  exact .pure rfl

theorem empty_merge_settles (force : Force) {e : Dict} (he : e.isEmpty = true) (m : Dict) :
    Settles (fun n => e.merge (Value.equals force n) m) fun m' =>
      m'.entries = m.entries ∧ (m.isEmpty = false → m' = m) := by
  cases hm : m.isEmpty with
  | true =>
    refine (merge_empty_settles force e hm).mono fun m' hm' => ⟨?_, by simp⟩
    rw [hm', List.isEmpty_iff.1 he, List.isEmpty_iff.1 hm]
  | false =>
    have hmerge (eq : Comparison) : e.merge eq m = pure m := by
      rw [merge, if_neg (by simp [hm]), if_pos he]
    simp only [hmerge]
    exact .pure ⟨rfl, fun _ => rfl⟩

/-- Merging is associative on the entries, with their keys and values as they are held, and an empty
map is neutral. Attaching two maps to a collection one after the other gives it the metadata that
their merge gives it, and neither way touches its position or anything else of it. -/
theorem merge_monoid_laws (force : Force) {σ : Store} {a b c : Dict} (ha : a.Built (Lawful σ))
    (hb : b.Built (Lawful σ)) (hc : c.Built (Lawful σ)) :
    (∃ entries,
      Settles (fun n => do (← a.merge (Value.equals force n) b).merge (Value.equals force n) c)
        (·.entries = entries) ∧
      Settles (fun n => do a.merge (Value.equals force n) (← b.merge (Value.equals force n) c))
        (·.entries = entries)) ∧
    (∀ e : Dict, e.isEmpty = true →
      Settles (fun n => a.merge (Value.equals force n) e) (· = a) ∧
      Settles (fun n => e.merge (Value.equals force n) a) fun m =>
        m.entries = a.entries ∧ (a.isEmpty = false → m = a)) ∧
    ∀ v : Value, v.info?.isSome → (∀ m ∈ v.metadata?, m.Built (Lawful σ)) → ∃ entries,
      Settles (fun n => do
          (← v.withMeta (Value.equals force n) a).withMeta (Value.equals force n) b)
        (v.Annotated entries) ∧
      Settles (fun n => do
          v.withMeta (Value.equals force n) (← a.merge (Value.equals force n) b))
        (v.Annotated entries) := by
  refine ⟨⟨_, merge_merge_settles force ha.keyed hb.keyed hc.keyed,
    merge_of_merge_settles force ha.keyed hb.keyed hc.keyed⟩, fun e he => ?_, fun v hv hmeta => ?_⟩
  · exact ⟨merge_empty_settles force a he, empty_merge_settles force he a⟩
  · have hkeyed := Value.metadataEntries_keyed hmeta
    exact ⟨_, withMeta_withMeta_settles force ha.keyed hb.keyed hv hkeyed,
      withMeta_merge_settles force ha.keyed hb.keyed hv hkeyed⟩

/-- Maps with a NaN for a key and with one key in three forms, attached to a vector that has a
position and metadata already. -/
theorem merge_monoid_laws_annotated :
    let nan : Value := .double ⟨0x7ff8000000000000⟩
    let a : Dict := ⟨2, [(nan, .int 1), (.vector ⟨⟨20, [.int 1]⟩, .plain⟩, .int 2)], .plain⟩
    let b : Dict := ⟨12, [(.seq (.cons 21 (.int 1) (.empty .plain) .plain), .seq (.lazy 0 .plain)),
      (nan, .nil)], .plain⟩
    let c : Dict := ⟨31, [(.seq (.view .array 22 ⟨#[.int 1], 0⟩ .plain), .int 3)], .plain⟩
    let v : Value := .vector ⟨⟨23, [.int 7]⟩, ⟨some ⟨4, 2⟩, some c⟩⟩
    let σ : Store := ⟨fun _ => (.int 1, .empty .plain), fun _ => [.int 1], fun _ => []⟩
    let force : Force := fun _ => Run.exhausted
    (a.Built (Lawful σ) ∧ b.Built (Lawful σ) ∧ c.Built (Lawful σ) ∧ v.metadata? = some c) ∧
      (∃ entries,
        Settles (fun n => do (← a.merge (Value.equals force n) b).merge (Value.equals force n) c)
          (·.entries = entries) ∧
        Settles (fun n => do a.merge (Value.equals force n) (← b.merge (Value.equals force n) c))
          (·.entries = entries)) ∧
      ∃ entries,
        Settles (fun n => do
            (← v.withMeta (Value.equals force n) a).withMeta (Value.equals force n) b)
          (v.Annotated entries) ∧
        Settles (fun n => do
            v.withMeta (Value.equals force n) (← a.merge (Value.equals force n) b))
          (v.Annotated entries) := by
  intro nan a b c v σ force
  have hvector : (Value.vector ⟨⟨20, [.int 1]⟩, .plain⟩).Lawful σ := Value.lawful_iff.2
    ⟨⟨rfl, trivial, trivial⟩, by simp [Value.parts, Vec.items, Value.lawful_atom]⟩
  have hcons : (Value.seq (.cons 21 (.int 1) (.empty .plain) .plain)).Lawful σ :=
    Value.lawful_iff.2
      ⟨⟨rfl, trivial, rfl⟩, by simp [Value.parts, Value.lawful_atom, Value.lawful_empty]⟩
  have hview : (Value.seq (.view .array 22 ⟨#[.int 1], 0⟩ .plain)).Lawful σ :=
    Value.lawful_iff.2
      ⟨⟨rfl, trivial, rfl⟩, by simp [Value.parts, Slice.toList, Value.lawful_atom]⟩
  have harun : Dict.ofList (Value.equals force 1) a.entries {} =
      some (.ok a, { storages := 3 }) := rfl
  have hbrun : Dict.ofList (Value.equals force 1) b.entries { storages := 10 } =
      some (.ok b, { storages := 13 }) := rfl
  have hcrun : Dict.ofList (Value.equals force 1) c.entries { storages := 30 } =
      some (.ok c, { storages := 32 }) := rfl
  have ha : a.Built (Lawful σ) := .ofList (by simp [a, nan, Value.lawful_atom, hvector]) harun
  have hb : b.Built (Lawful σ) := .ofList (by simp [b, nan, Value.lawful_atom, hcons]) hbrun
  have hc : c.Built (Lawful σ) := .ofList (by simp [c, hview]) hcrun
  obtain ⟨hassoc, -, hmeta⟩ := merge_monoid_laws force ha hb hc
  refine ⟨⟨ha, hb, hc, rfl⟩, hassoc, hmeta v rfl fun m hm => ?_⟩
  cases hm
  exact hc

end Dict

end LispKernel
