import Errata.File.Document
import Errata.Proofs.File.Encoding
import Errata.Proofs.File.Tree
import Errata.Proofs.Path.Set

/-!
# Documents and caches

A document that is read is what the bytes of its file decode to. A cache keeps what it knows: it
looks at a file once, and answers from then on with the document it has.
-/
namespace Errata

open FileTree

def Document.Decodes (bytes : Option ByteArray) (d : Document) : Prop :=
  ∃ b, bytes = some b ∧ Encoding.decode? b = some (d.text, d.encoding)

/-- The document in what a path names: only that decides whether it can be read. -/
def Document.ofFound (limit : ℕ) (p : Path) :
    Except Cause Entry → Except DocumentError Document
  | .error c => .error (.ofCause .query p c)
  | .ok .directory =>
    if limit < 4096 then .error (.tooLarge p 4096 limit)
    else .error (.ofCause .read p .isADirectory)
  | .ok (.file content) =>
    if limit < content.size then .error (.tooLarge p content.size limit)
    else match Encoding.decode? content with
      | some (text, encoding) => .ok ⟨text, encoding⟩
      | none => .error (.notText p)

theorem Document.read_eq_ofFound (t : FileTree) (limit : ℕ) (p : Path) :
    Document.read t limit p = ofFound limit p (t.find p) := by
  unfold Document.read Document.checkSize Document.fetch FileTree.size FileTree.read
  cases t.find p with
  | error c => rfl
  | ok e =>
    cases e with
    | directory => by_cases hsize : limit < 4096 <;> simp [bind, Except.bind, ofFound, hsize]
    | file content =>
      by_cases hsize : limit < content.size
      · simp [bind, Except.bind, ofFound, hsize]
      · rcases hdecode : Encoding.decode? content with _ | ⟨text, encoding⟩ <;>
          simp [bind, Except.bind, ofFound, hsize, hdecode]

theorem Document.file_of_ofFound {limit : ℕ} {p : Path} {found : Except Cause Entry}
    {d : Document} (h : ofFound limit p found = .ok d) :
    ∃ content, found = .ok (.file content) := by
  unfold ofFound at h
  split at h
  · cases h
  · split at h <;> cases h
  · exact ⟨_, rfl⟩

theorem Document.read_eq_ok_iff {t : FileTree} {limit : ℕ} {p : Path} {d : Document} :
    Document.read t limit p = .ok d ↔ ∃ bytes, t.read p = .ok bytes ∧ bytes.size ≤ limit ∧
      Encoding.decode? bytes = some (d.text, d.encoding) := by
  rw [Document.read_eq_ofFound, FileTree.read]
  cases t.find p with
  | error c => simp [ofFound, bind, Except.bind]
  | ok e =>
    cases e with
    | directory =>
      simp only [ofFound, bind, Except.bind]
      split <;> simp
    | file content =>
      simp only [ofFound, bind, Except.bind, Except.ok.injEq, exists_eq_left']
      by_cases hsize : limit < content.size
      · simp [hsize, Nat.not_le.mpr hsize]
      · cases d
        cases Encoding.decode? content <;>
          simp [hsize, Nat.not_lt.mp hsize, Prod.ext_iff]

theorem Document.read_eq_ok {t : FileTree} {limit : ℕ} {p : Path} {d : Document}
    (h : Document.read t limit p = .ok d) : Decodes (t.fileAt? (locate t.current p)) d := by
  obtain ⟨bytes, hread, -, hdecode⟩ := read_eq_ok_iff.mp h
  exact ⟨bytes, fileAt?_of_read hread, hdecode⟩

/-- A file that is there can be written with every text that its encoding has bytes for. -/
theorem Document.write_eq_error {t : FileTree} {p : Path} {text : Text} {encoding : Encoding}
    {e : DocumentError} (h : Document.write t p text encoding = .error e) {content : ByteArray}
    (hfile : t.find p = .ok (.file content)) :
    encoding.encode? text = none ∧ e = .notEncodable p encoding := by
  unfold Document.write at h
  split at h
  · next hnone => exact ⟨hnone, (Except.error.inj h).symm⟩
  · next bytes hsome =>
    rw [write_of_find hfile] at h
    cases h

theorem Document.write_eq_ok {t t' : FileTree} {p : Path} {text : Text} {encoding : Encoding}
    (h : Document.write t p text encoding = .ok t') :
    (encoding.encode? text).isSome ∧ Extends t t' ∧
    t'.fileAt? = Function.update t.fileAt? (locate t.current p) (encoding.encode? text) := by
  unfold Document.write at h
  split at h
  · simp at h
  · next bytes hencode =>
    split at h
    · simp at h
    · next hwrite =>
      obtain rfl := Except.ok.inj h
      obtain ⟨-, hextends, hfiles⟩ := FileTree.write_eq_ok hwrite
      exact ⟨by simp [hencode], hextends, by rw [hfiles, hencode]⟩

/-- What is read and written back as it is stays the same, byte by byte. Bytes with a zero are not
read at all, every other byte string is what its own encoding makes of its text. An edited text
comes back from UTF-8; Latin-1 takes it as long as each of its characters has a byte. -/
theorem Document.written_back_unchanged (bytes : ByteArray) (text : Text) :
    (Encoding.decode? bytes = none ↔ 0 ∈ bytes.data.toList) ∧
    (∀ t e, Encoding.decode? bytes = some (t, e) →
      e.encode? t = some bytes ∧ (e = .utf8 ↔ Utf8.WellFormed bytes.data.toList)) ∧
    (∃ written, Encoding.utf8.encode? text = some written ∧
      (0 ∉ written.data.toList → Encoding.decode? written = some (text, .utf8))) ∧
    ((Encoding.latin1.encode? text).isSome ↔ ∀ c ∈ text, c.toNat ≤ 0xFF) ∧
    ∀ tree limit p d tree', Document.read tree limit p = .ok d →
      Document.write tree p d.text d.encoding = .ok tree' → tree'.get? = tree.get? := by
  refine ⟨Encoding.decode?_eq_none_iff, ?_, ?_, Encoding.isSome_encode?_latin1_iff, ?_⟩
  · intro t e h
    exact (Encoding.decode?_eq_some_iff.mp h).2
  · refine ⟨_, Text.encode?_utf8 text, fun hzero => ?_⟩
    exact Encoding.decode?_eq_utf8_iff.mpr ⟨hzero, Text.encode?_utf8 text⟩
  · intro tree limit p d tree' h hwritten
    obtain ⟨content, hread, -, hdecode⟩ := read_eq_ok_iff.mp h
    have hencode := (Encoding.decode?_eq_some_iff.mp hdecode).2.1
    have hplace := FileTree.read_eq_ok_iff.mp hread
    have hwrite := write_of_find (find_eq_file_iff.mpr hplace) content
    simp only [Document.write, hencode, hwrite] at hwritten
    obtain rfl := Except.ok.inj hwritten
    exact get?_put_same (fileAt?_eq_some_iff.mp hplace.2)

/-- A file in Latin-1 is written back as it is, and stays so. -/
theorem Document.written_back_unchanged_latin1 :
    let tree := (FileTree.new ["w"] "/tmp").put ["w", "a.adoc"] (.file ⟨#[0x42, 0xE9, 0x0A]⟩)
    Document.read tree 3 "a.adoc" = .ok ⟨"Bé\n", .latin1⟩ ∧
      Encoding.encode? .latin1 "Bé\n" = some ⟨#[0x42, 0xE9, 0x0A]⟩ ∧
      ¬ Utf8.WellFormed [0x42, 0xE9, 0x0A] ∧
      ∃ tree', Document.write tree "a.adoc" "Bé\n" .latin1 = .ok tree' ∧
        tree'.get? = tree.get? := by
  intro tree
  have hread : Document.read tree 3 "a.adoc" = .ok ⟨"Bé\n", .latin1⟩ := by decide
  have hdecode : Encoding.decode? ⟨#[0x42, 0xE9, 0x0A]⟩ = some (("Bé\n" : Text), .latin1) := by
    decide
  obtain ⟨-, hback, -, -, hwrite⟩ := written_back_unchanged ⟨#[0x42, 0xE9, 0x0A]⟩ []
  obtain ⟨hencode, hform⟩ := hback _ _ hdecode
  refine ⟨hread, hencode, ?_, _, rfl, hwrite _ _ _ _ _ hread rfl⟩
  intro h
  cases hform.mpr h

namespace Cache

theorem get?_congr (c : Cache) {p q : Path} (h : p.components = q.components) :
    c.get? p = c.get? q := by
  simp [get?, Path.same, h]

theorem keep_of_unknown {c : Cache} {p : Path} (h : c.get? p = none) (d : Document) :
    c.keep p d = (d, { c with entries := (p, d) :: c.entries }) := by
  rw [keep, h]

theorem read_eq (c : Cache) (t : FileTree) (p : Path) :
    c.read t p =
      match c.get? p with
      | some d => (.ok d, c)
      | none =>
        match Document.read t c.limit p with
        | .ok d => (.ok d, { c with entries := (p, d) :: c.entries })
        | .error e => (.error e, c) := by
  rw [read]
  cases hknown : c.get? p with
  | some d => rfl
  | none =>
    cases Document.read t c.limit p with
    | error e => rfl
    | ok d => simp only [keep_of_unknown hknown, Prod.map_apply, id_eq]

def Extends (a b : Cache) : Prop := ∀ p d, a.get? p = some d → b.get? p = some d

theorem Extends.refl (a : Cache) : Extends a a := fun _ _ h => h

theorem Extends.trans {a b c : Cache} (hab : Extends a b) (hbc : Extends b c) : Extends a c :=
  fun p d h => hbc p d (hab p d h)

theorem get?_read {c c' : Cache} {t : FileTree} {p : Path} {d : Document}
    (h : c.read t p = (.ok d, c')) :
    c'.get? = fun q => if p.same q then some d else c.get? q := by
  rw [read_eq] at h
  funext q
  split at h
  · next known hknown =>
    obtain ⟨hd, rfl⟩ := Prod.mk.inj h
    obtain rfl := Except.ok.inj hd
    split
    · next hsame => rw [← c.get?_congr (Path.same_iff.mp hsame), hknown]
    · rfl
  · split at h
    · obtain ⟨hd, rfl⟩ := Prod.mk.inj h
      obtain rfl := Except.ok.inj hd
      by_cases hsame : p.same q <;> simp [get?, hsame]
    · cases (Prod.mk.inj h).1

theorem source_of_read {c c' : Cache} {t : FileTree} {p : Path} {d : Document}
    (h : c.read t p = (.ok d, c')) :
    c.get? p = some d ∨
      c.get? p = none ∧ Document.Decodes (t.fileAt? (locate t.current p)) d := by
  rw [read_eq] at h
  split at h
  · next known hknown =>
    left
    rw [hknown, Except.ok.inj (Prod.mk.inj h).1]
  · next hnone =>
    split at h
    · next hread =>
      right
      obtain rfl := Except.ok.inj (Prod.mk.inj h).1
      exact ⟨hnone, Document.read_eq_ok hread⟩
    · cases (Prod.mk.inj h).1

theorem extends_of_read {c c' : Cache} {t : FileTree} {p : Path} {d : Document}
    (h : c.read t p = (.ok d, c')) : Extends c c' := by
  intro q e hq
  simp only [get?_read h]
  split
  · next hsame =>
    rw [← c.get?_congr (Path.same_iff.mp hsame)] at hq
    rcases source_of_read h with hd | ⟨hnone, -⟩
    · rw [← hd, hq]
    · simp [hq] at hnone
  · exact hq

theorem limit_read (c : Cache) (t : FileTree) (p : Path) : (c.read t p).2.limit = c.limit := by
  rw [read_eq]
  split
  · rfl
  · split <;> rfl

theorem read_of_known {c : Cache} {p : Path} {d : Document} (h : c.get? p = some d)
    (t : FileTree) : c.read t p = (.ok d, c) := by
  rw [read_eq, h]

theorem read_of_unknown {c : Cache} {p : Path} (h : c.get? p = none) (t : FileTree) :
    (c.read t p).1 = Document.read t c.limit p := by
  rw [read_eq, h]
  cases Document.read t c.limit p <;> rfl

theorem read_eq_error {c c' : Cache} {t : FileTree} {p : Path} {e : DocumentError}
    (h : c.read t p = (.error e, c')) : c' = c := by
  rw [read_eq] at h
  split at h
  · cases (Prod.mk.inj h).1
  · split at h
    · cases (Prod.mk.inj h).1
    · exact (Prod.mk.inj h).2.symm

theorem error_of_read {c c' : Cache} {t : FileTree} {p : Path} {e : DocumentError}
    (h : c.read t p = (.error e, c')) : Document.read t c.limit p = .error e := by
  rw [read_eq] at h
  split at h
  · cases (Prod.mk.inj h).1
  · split at h
    · cases (Prod.mk.inj h).1
    · next hread =>
      obtain rfl := Except.error.inj (Prod.mk.inj h).1
      exact hread

end Cache

end Errata
