import Errata.Proofs.File.Cache
import Mathlib.Logic.Relation

/-!
# Reads that overlap

A read looks its path up, then asks for the size of the file, then takes its bytes, and puts the
document into the cache at last. Other reads of the same cache and changes of the files can come
in between. Still all reads of a path end with one document, the one that was put in first. Its
file was small enough when the size was asked for, which need not be when the bytes were taken.
-/
namespace Errata.Cache

open Relation (ReflTransGen)

inductive Phase where
  | begun
  /-- The cache has nothing for the path. -/
  | missed
  /-- The file was not too large. -/
  | admitted
  | fetched (d : Document)
  | ended (answer : Except DocumentError Document)

/-- The next step of a read, with the cache and the files as they are then. -/
def Phase.advance (c : Cache) (t : FileTree) (p : Path) : Phase → Phase × Cache
  | .begun =>
    match c.get? p with
    | some d => (.ended (.ok d), c)
    | none => (.missed, c)
  | .missed =>
    match Document.checkSize t c.limit p with
    | .error e => (.ended (.error e), c)
    | .ok () => (.admitted, c)
  | .admitted =>
    match Document.fetch t p with
    | .error e => (.ended (.error e), c)
    | .ok d => (.fetched d, c)
  | .fetched d => (c.keep p d).map (fun d => .ended (.ok d)) id
  | .ended answer => (.ended answer, c)

/-- A read that nothing comes in between. -/
theorem iterate_advance_eq_read (c : Cache) (t : FileTree) (p : Path) :
    (fun x : Phase × Cache => x.1.advance x.2 t p)^[4] (.begun, c) =
      (.ended (c.read t p).1, (c.read t p).2) := by
  rw [read, Document.read]
  simp only [Function.iterate_succ, Function.comp_apply, Function.iterate_zero, id_eq]
  cases hknown : c.get? p with
  | some d => simp only [Phase.advance, hknown]
  | none =>
    simp only [Phase.advance, hknown]
    cases hsize : Document.checkSize t c.limit p with
    | error e => rfl
    | ok =>
      simp only
      cases Document.fetch t p with
      | error e => rfl
      | ok d => rfl

theorem Phase.cache_advance (c : Cache) (t : FileTree) (p : Path) (ph : Phase) :
    (ph.advance c t p).2 = c ∨ ∃ d, ph = .fetched d ∧ c.get? p = none ∧
      ph.advance c t p = (.ended (.ok d), { c with entries := (p, d) :: c.entries }) := by
  cases ph with
  | begun | missed | admitted =>
    refine .inl ?_
    simp only [advance]
    split <;> rfl
  | ended => exact .inl rfl
  | fetched d =>
    simp only [advance, keep]
    cases hknown : c.get? p with
    | some d' => exact .inl rfl
    | none => exact .inr ⟨d, rfl, rfl, rfl⟩

/-- A cache that several reads are at work on, with the files as they are. -/
structure Traffic where
  cache : Cache
  files : FileTree
  reads : List (Path × Phase)

namespace Traffic

def new (limit : ℕ) (files : FileTree) : Traffic := ⟨.new limit, files, []⟩

inductive Step : Traffic → Traffic → Prop
  | begin (s : Traffic) (p : Path) : Step s { s with reads := s.reads ++ [(p, .begun)] }
  | change (s : Traffic) (files : FileTree) : Step s { s with files := files }
  | advance {s : Traffic} {before after : List (Path × Phase)} {p : Path} {ph : Phase}
      (h : s.reads = before ++ (p, ph) :: after) :
      Step s { s with
        cache := (ph.advance s.cache s.files p).2
        reads := before ++ (p, (ph.advance s.cache s.files p).1) :: after }

def Reaches : Traffic → Traffic → Prop := ReflTransGen Step

/-- On the way from `start` to `s` a file of this path was not too large, and no sooner it held this
document. -/
def Origin (start s : Traffic) (p : Path) (d : Document) : Prop :=
  ∃ s₁ s₂, Reaches start s₁ ∧ Reaches s₁ s₂ ∧ Reaches s₂ s ∧
    Document.checkSize s₁.files start.cache.limit p = .ok () ∧ Document.fetch s₂.files p = .ok d

theorem Origin.mono {start s s' : Traffic} {p : Path} {d : Document} (h : Origin start s p d)
    (hreach : Reaches s s') : Origin start s' p d := by
  obtain ⟨s₁, s₂, h₁, h₂, h₃, hsize, hfetch⟩ := h
  exact ⟨s₁, s₂, h₁, h₂, h₃.trans hreach, hsize, hfetch⟩

/-- What is known of a read that has come so far. -/
def Holds (start s : Traffic) (p : Path) : Phase → Prop
  | .admitted => ∃ s₁, Reaches start s₁ ∧ Reaches s₁ s ∧
      Document.checkSize s₁.files start.cache.limit p = .ok ()
  | .fetched d => Origin start s p d
  | .ended (.ok d) => s.cache.get? p = some d
  | _ => True

/-- The cache has a document for the paths that some read has given one for, and each of them comes
from a file of the path. -/
structure Sound (start s : Traffic) : Prop where
  reaches : Reaches start s
  limit : s.cache.limit = start.cache.limit
  distinct : s.cache.keys.Nodup
  holds : ∀ r ∈ s.reads, Holds start s r.1 r.2
  known : ∀ p d, s.cache.get? p = some d →
    ∃ q, q.same p ∧ (q, .ended (.ok d)) ∈ s.reads ∧ Origin start s q d

variable {start s s' : Traffic}

theorem Step.extends (h : Step s s') : Extends s.cache s'.cache := by
  cases h with
  | begin | change => exact .refl _
  | @advance before after p ph _ =>
    rcases ph.cache_advance s.cache s.files p with hsame | ⟨d, -, hnone, heq⟩
    · simp only [hsame]
      exact .refl _
    · simp only [heq]
      intro q e hq
      have hother : ¬p.same q := by
        intro hsame
        rw [← s.cache.get?_congr (Path.same_iff.mp hsame), hnone] at hq
        cases hq
      simpa [get?, hother] using hq

theorem Reaches.extends (h : Reaches s s') : Extends s.cache s'.cache := by
  induction h with
  | refl => exact .refl _
  | tail _ hstep ih => exact ih.trans hstep.extends

theorem Holds.step {p : Path} {ph : Phase} (h : Holds start s p ph) (hstep : Step s s') :
    Holds start s' p ph := by
  cases ph with
  | begun | missed => trivial
  | admitted =>
    obtain ⟨s₁, h₁, h₂, hsize⟩ := h
    exact ⟨s₁, h₁, h₂.tail hstep, hsize⟩
  | fetched d => exact Origin.mono h (.single hstep)
  | ended answer =>
    cases answer with
    | error e => trivial
    | ok d => exact hstep.extends p d h

/-- A read that goes on learns no more than the files and the cache tell it. -/
theorem Sound.holds_advance (h : Sound start s) (hstep : Step s s') {p : Path} {ph : Phase}
    (hp : Holds start s p ph) (hcache : s'.cache = (ph.advance s.cache s.files p).2) :
    Holds start s' p (ph.advance s.cache s.files p).1 := by
  cases ph with
  | begun =>
    simp only [Phase.advance] at hcache ⊢
    split
    · next d hd => exact hstep.extends p d hd
    · trivial
  | missed =>
    simp only [Phase.advance]
    split
    · trivial
    · next hsize => exact ⟨s, h.reaches, .single hstep, h.limit ▸ hsize⟩
  | admitted =>
    simp only [Phase.advance]
    split
    · trivial
    · next hfetch =>
      obtain ⟨s₁, h₁, h₂, hsize⟩ := hp
      exact ⟨s₁, s, h₁, h₂, .single hstep, hsize, hfetch⟩
  | fetched d =>
    simp only [Phase.advance, keep] at hcache ⊢
    cases hknown : s.cache.get? p with
    | some d' => exact hstep.extends p d' hknown
    | none =>
      rw [hknown] at hcache
      show s'.cache.get? p = some d
      rw [hcache]
      simp [get?, Path.same_iff]
  | ended => exact Holds.step hp hstep

theorem Sound.known_advance (h : Sound start s) (hstep : Step s s')
    {before after : List (Path × Phase)} {p : Path} {ph : Phase}
    (hreads : s.reads = before ++ (p, ph) :: after)
    (hreads' : s'.reads = before ++ (p, (ph.advance s.cache s.files p).1) :: after)
    (hcache : s'.cache = (ph.advance s.cache s.files p).2) {q : Path} {d : Document}
    (hd : s'.cache.get? q = some d) :
    ∃ q', q'.same q ∧ (q', .ended (.ok d)) ∈ s'.reads ∧ Origin start s' q' d := by
  have hold : s.cache.get? q = some d →
      ∃ q', q'.same q ∧ (q', .ended (.ok d)) ∈ s'.reads ∧ Origin start s' q' d := by
    intro hd
    obtain ⟨q', hsame, hmem, horigin⟩ := h.known q d hd
    refine ⟨q', hsame, ?_, horigin.mono (.single hstep)⟩
    rw [hreads, List.mem_append, List.mem_cons] at hmem
    rw [hreads', List.mem_append, List.mem_cons]
    -- a read that has ended stays as it is
    refine hmem.imp_right (Or.imp_left fun heq => ?_)
    obtain ⟨rfl, rfl⟩ := Prod.mk.inj heq
    rfl
  rcases ph.cache_advance s.cache s.files p with hsame | ⟨d', rfl, -, heq⟩
  · exact hold (by rwa [hcache, hsame] at hd)
  · rw [hcache, heq] at hd
    by_cases hpq : p.same q
    · obtain rfl : d' = d := by simpa [get?, hpq] using hd
      have hp : Origin start s p d' := h.holds (p, .fetched d') (by simp [hreads])
      exact ⟨p, hpq, by simp [hreads', heq], hp.mono (.single hstep)⟩
    · exact hold (by simpa [get?, hpq] using hd)

theorem Sound.step (h : Sound start s) (hstep : Step s s') : Sound start s' := by
  have hreaches : Reaches start s' := h.reaches.tail hstep
  have hkept : ∀ r ∈ s.reads, Holds start s' r.1 r.2 := fun r hr => (h.holds r hr).step hstep
  cases hstep with
  | begin p =>
    refine ⟨hreaches, h.limit, h.distinct, fun r hr => ?_, fun q d hd => ?_⟩
    · rcases List.mem_append.mp hr with hr | hr
      · exact hkept r hr
      · rw [List.mem_singleton.mp hr]
        trivial
    · obtain ⟨q', hsame, hmem, horigin⟩ := h.known q d hd
      exact ⟨q', hsame, List.mem_append_left _ hmem, horigin.mono (.single (.begin s p))⟩
  | change files =>
    refine ⟨hreaches, h.limit, h.distinct, hkept, fun q d hd => ?_⟩
    obtain ⟨q', hsame, hmem, horigin⟩ := h.known q d hd
    exact ⟨q', hsame, hmem, horigin.mono (.single (.change s files))⟩
  | @advance before after p ph hreads =>
    have hstep : Step s _ := .advance hreads
    have hp : Holds start s p ph := h.holds (p, ph) (by simp [hreads])
    refine ⟨hreaches, ?_, ?_, fun r hr => ?_, fun q d hd => ?_⟩
    · rcases ph.cache_advance s.cache s.files p with hsame | ⟨d, -, -, heq⟩
      · simp only [hsame, h.limit]
      · simp only [heq, h.limit]
    · rcases ph.cache_advance s.cache s.files p with hsame | ⟨d, -, hnone, heq⟩
      · simpa only [hsame] using h.distinct
      · have hnew : p.components ∉ s.cache.keys := by simp [mem_keys_iff, hnone]
        simp only [heq]
        exact List.nodup_cons.mpr ⟨hnew, h.distinct⟩
    · rcases List.mem_append.mp hr with hr | hr
      · exact hkept r (by simp [hreads, hr])
      · rcases List.mem_cons.mp hr with rfl | hr
        · exact h.holds_advance hstep hp rfl
        · exact hkept r (by simp [hreads, hr])
    · exact h.known_advance hstep hreads rfl rfl hd

theorem sound_of_reaches {limit : ℕ} {files : FileTree} (h : Reaches (new limit files) s) :
    Sound (new limit files) s := by
  induction h with
  | refl => exact ⟨.refl, rfl, List.nodup_nil, by simp [new], by simp [new, Cache.new, get?]⟩
  | tail _ hstep ih => exact ih.step hstep

/-- The paths that some read has given a document for. -/
def given (s : Traffic) : List (List Path.Component) :=
  (s.reads.filter fun r => match r.2 with
    | .ended (.ok _) => true
    | _ => false).map (·.1.components)

theorem Sound.keys_toFinset (h : Sound start s) : s.cache.keys.toFinset = s.given.toFinset := by
  ext k
  simp only [List.mem_toFinset, given, List.mem_map, List.mem_filter]
  constructor
  · intro hk
    obtain ⟨e, -, rfl⟩ := List.mem_map.mp hk
    obtain ⟨d, hd⟩ := mem_keys_iff.mp hk
    obtain ⟨q, hsame, hmem, -⟩ := h.known _ d hd
    exact ⟨(q, _), ⟨hmem, rfl⟩, Path.same_iff.mp hsame⟩
  · rintro ⟨⟨p, ph⟩, ⟨hmem, hended⟩, rfl⟩
    split at hended
    · next d heq =>
      have hheld : Holds start s p ph := h.holds _ hmem
      obtain rfl : ph = .ended (.ok d) := heq
      exact mem_keys_iff.mpr ⟨d, hheld⟩
    · cases hended

/-- However reads of one cache and changes of the files overlap: a read that gives a document gives
what the cache has for the path from then on, so all reads of the path that give one give the same.
It was decoded from a file of the path that had been small enough before. A read that fails has left
the cache alone, and there are as many entries as paths that a read gave a document for. -/
theorem overlapping_reads_agree {limit : ℕ} {files : FileTree} {s : Traffic}
    (h : Reaches (new limit files) s) :
    (∀ p d, (p, .ended (.ok d)) ∈ s.reads →
      (∀ s', Reaches s s' → s'.cache.get? p = some d) ∧
      (∀ q d', q.same p → (q, .ended (.ok d')) ∈ s.reads → d' = d) ∧
      ∃ q, q.same p ∧ Origin (new limit files) s q d) ∧
    (∀ p ph e, (p, ph) ∈ s.reads → (ph.advance s.cache s.files p).1 = .ended (.error e) →
      (ph.advance s.cache s.files p).2 = s.cache) ∧
    s.cache.size = s.given.toFinset.card := by
  have hsound := sound_of_reaches h
  refine ⟨fun p d hmem => ?_, fun p ph e _ hended => ?_, ?_⟩
  · have hd : s.cache.get? p = some d := hsound.holds _ hmem
    refine ⟨fun s' hreach => hreach.extends p d hd, fun q d' hsame hmem' => ?_, ?_⟩
    · have hd' : s.cache.get? q = some d' := hsound.holds _ hmem'
      rw [s.cache.get?_congr (Path.same_iff.mp hsame), hd] at hd'
      exact (Option.some.inj hd').symm
    · obtain ⟨q, hsame, -, horigin⟩ := hsound.known p d hd
      exact ⟨q, hsame, horigin⟩
  · rcases ph.cache_advance s.cache s.files p with hsame | ⟨d, -, -, heq⟩
    · exact hsame
    · rw [heq] at hended
      cases hended
  · rw [← length_keys, ← List.toFinset_card_of_nodup hsound.distinct, hsound.keys_toFinset]

end Traffic

end Errata.Cache
