import MaxEnt.Proofs.Files.Tree
import MaxEnt.Proofs.Store.Moment
import MaxEnt.Store.Basic

namespace MaxEnt

/-- A call that saves a model: what is saved, the name and the version that it is kept under, the
time, and what the caller adds to the metadata. -/
structure Saving where
  model : ReportedModel
  name : Text
  version : Text
  time : Moment
  entries : Table Text Json

/-- Nothing in the text divides a path or makes a pattern, as is so for letters, digits, `_`, `-` and
`.` -/
def PlainName (t : Text) : Prop :=
  ∀ c ∈ t, c ≠ ↑ '/' ∧ c ≠ ↑ '*' ∧ c ≠ ↑ '?' ∧ c ≠ ↑ '[' ∧ c.isSurrogate = false

instance (t : Text) : Decidable (PlainName t) :=
  decidable_of_iff (t.all fun c => c ≠ ↑ '/' && c ≠ ↑ '*' && c ≠ ↑ '?' && c ≠ ↑ '[' &&
    !c.isSurrogate) (by simp [PlainName, and_assoc])

namespace PlainName

variable {t u : Text}

theorem append (ht : PlainName t) (hu : PlainName u) : PlainName (t ++ u) :=
  List.forall_mem_append.2 ⟨ht, hu⟩

theorem literal (h : PlainName t) : Glob.Literal t := fun c hc =>
  ⟨(h c hc).2.1, (h c hc).2.2.1, (h c hc).2.2.2.1⟩

theorem slash (h : PlainName t) : ↑ '/' ∉ t := fun hc => (h _ hc).1 rfl

theorem of_digits {count n : Nat} : PlainName (Numeral.padded count n) := by
  intro c hc
  rw [Numeral.padded_eq] at hc
  have hval := Numeral.val_of_mem_digitText hc
  have hne : ∀ d : CodePoint, ¬ (48 ≤ d.val ∧ d.val ≤ 57) → c ≠ d := by
    rintro d hd rfl
    exact hd hval
  refine ⟨hne _ (by decide), hne _ (by decide), hne _ (by decide), hne _ (by decide),
    CodePoint.isSurrogate_of_lt (by omega)⟩

theorem text (m : Moment) : PlainName m.text := by
  have hmark : PlainName [↑ '_'] := by decide
  exact of_digits.append (of_digits.append (of_digits.append (hmark.append (of_digits.append
    (of_digits.append (of_digits.append (hmark.append (of_digits.append (by simp [PlainName])))))))))

end PlainName

namespace ModelStore

def front (name version : Text) : Text := Text.concat [name, "_", version, "_"]

theorem stamp_eq (name version time : Text) :
    stamp name version time = front name version ++ time := by
  simp [stamp, front, Text.concat, List.intercalate]

theorem plain_front {name version : Text} (hname : PlainName name) (hversion : PlainName version) :
    PlainName (front name version) := by
  have hmark : PlainName "_" := by decide
  exact hname.append (hmark.append (hversion.append (hmark.append (by simp [PlainName]))))

end ModelStore

namespace Saving

open ModelStore

structure Plain (c : Saving) : Prop where
  name : PlainName c.name
  version : PlainName c.version

def stamp (c : Saving) : Text := ModelStore.stamp c.name c.version c.time.text

def modelFile (c : Saving) : Text := c.stamp ++ ↑ ".bin"

def metadataFile (c : Saving) : Text := c.stamp ++ ↑ "_metadata.json"

def metadata (c : Saving) : Table Text Json :=
  Metadata.ofModel c.model c.name c.version c.time.text c.entries

def output (c : Saving) : Output UInt8 × Option WriteError :=
  (Output.writer Binary.encode true).persist c.model.model .empty

variable {c : Saving}

theorem underscore_mem_stamp (c : Saving) : ↑ '_' ∈ c.stamp := by
  have hmark : ↑ '_' ∈ Text.ofString "_" := by decide
  rw [stamp, stamp_eq, front]
  simp [Text.concat, hmark]

theorem Plain.stamp (h : c.Plain) : PlainName c.stamp := by
  rw [Saving.stamp, stamp_eq]
  exact (plain_front h.name h.version).append (.text c.time)

theorem isPart_of_underscore {t : Text} (h : ↑ '_' ∈ t) : Path.isPart t = true ∧ t ≠ ↑ ".." := by
  have hempty : t ≠ [] := List.ne_nil_of_mem h
  have hdot : t ≠ ↑ "." := fun he => absurd (he ▸ h) (by decide)
  refine ⟨by simp [Path.isPart, hempty, hdot], ?_⟩
  rintro rfl
  exact absurd h (by decide)

theorem join_stamp (h : c.Plain) {last : Text} (hlast : PlainName last) (folder : Path) :
    folder.join (.ofText (c.stamp ++ last)) = folder.child (c.stamp ++ last) :=
  Path.join_ofText (h.stamp.append hlast).slash
    (isPart_of_underscore (List.mem_append_left _ c.underscore_mem_stamp)).1 folder

theorem modelFile_ne_up (c : Saving) : c.modelFile ≠ ↑ ".." :=
  (isPart_of_underscore (List.mem_append_left _ c.underscore_mem_stamp)).2

theorem metadataFile_ne_up (c : Saving) : c.metadataFile ≠ ↑ ".." :=
  (isPart_of_underscore (List.mem_append_left _ c.underscore_mem_stamp)).2

theorem stamp_ne_nil (c : Saving) : c.stamp ≠ [] := List.ne_nil_of_mem c.underscore_mem_stamp

theorem cutName_modelFile (c : Saving) : Path.cutName c.modelFile = (c.stamp, ↑ ".bin") :=
  Path.cutName_append c.stamp_ne_nil (by decide : Text.ofString "bin" ≠ []) (by decide)

theorem isCompressed_modelFile (c : Saving) (folder : Path) :
    (folder.child c.modelFile).isCompressed = false := by
  have hgz : Text.ofString ".bin" ≠ ↑ ".gz" := by decide
  rw [Path.isCompressed, Path.suffix, Path.name_child, cutName_modelFile]
  exact decide_eq_false hgz

theorem isPlainText_modelFile (c : Saving) (folder : Path) :
    (folder.child c.modelFile).isPlainText = false := by
  have hlast : (folder.child c.modelFile).suffixes.getLast? = some ↑ ".bin" :=
    Path.getLast?_suffixes (folder.name_child c.modelFile) (by decide : Text.ofString "bin" ≠ [])
      (by decide) c.underscore_mem_stamp (by decide)
  have hgz : ¬ (some ↑ ".bin" : Option Text) = some ↑ ".gz" := by decide
  simp only [Path.isPlainText, hlast, if_neg hgz]
  decide

end Saving

end MaxEnt
