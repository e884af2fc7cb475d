import PointsTo.Options.Yaml
import PointsTo.Proofs.YamlDocuments

/-!
# Options that are restored

Options are saved as a document that starts from the standard preset and holds a patch, from which
options that are unset are left out.  Nothing is lost that way, since the standard preset leaves
them unset, too.  The text of a document is read as the document, provided that its numbers have
their size: texts that would be read as something else are not written bare.

Main results:

- Theorem {lit}`Format.restore_save`: saved options are restored if they are valid, and refused as
  they are refused themselves if not.
- Theorem {lit}`Document.ofYaml?_toYaml`: documents are read back from their YAML texts.
- Theorem {lit}`Options.ofYaml_toYaml`: options are restored from their YAML texts.
-/

namespace PointsTo

namespace Yaml.Node

variable {α : Type} {write : α → Node} {read : Node → Option α} {a : α} {o : Option α}
  {name other : String} {names : List String} {entries : List (String × Node)}

/-! ## Values of a kind -/

/-- A value is written so that it is read back, and not as null. -/
structure Restores (write : α → Node) (read : Node → Option α) (a : α) : Prop where
  wellFormed : (write a).WellFormed
  nullable_eq : nullable read (write a).asRead = some (some a)

/-- A text that is written bare is a word that does not stand for null. -/
theorem textAsRead_cases (s : String) :
    textAsRead s = text s ∨ textAsRead s = word s ∧ Word.isNull s = false := by
  have hfits := fits_styleOf s
  unfold textAsRead
  split
  · rename_i hbare
    rw [hbare] at hfits
    exact .inr ⟨rfl, hfits.2⟩
  · exact .inl rfl

/-- A text is a text, however it was written. -/
@[simp] theorem text?_textAsRead (s : String) : (textAsRead s).text? = some s := by
  rcases textAsRead_cases s with h | ⟨h, -⟩ <;> rw [h] <;> rfl

/-- A text is not null, as it is not written as the word for that. -/
theorem nullable_textAsRead (read : Node → Option α) (s : String) :
    nullable read (textAsRead s) = (read (textAsRead s)).map some := by
  rcases textAsRead_cases s with h | ⟨h, hnull⟩
  · rw [h]
    rfl
  · rw [h, nullable, if_neg (by simp [hnull])]

/-- A list is not null. -/
theorem nullable_list (read : Node → Option α) (xs : List Node) :
    nullable read (list xs) = (read (list xs)).map some := rfl

/-- A map is not null. -/
theorem nullable_map (read : Node → Option α) (es : List (String × Node)) :
    nullable read (map es) = (read (map es)).map some := rfl

/-- Texts are restored. -/
theorem restores_text (s : String) : Restores text text? s where
  wellFormed := .text s
  nullable_eq := by rw [asRead, nullable_textAsRead, text?_textAsRead]; rfl

/-- Strategies are restored. -/
theorem restores_strategy (s : Strategy) :
    Restores (fun s : Strategy => text s.text) (fun x => x.text?.bind Strategy.ofText?) s where
  wellFormed := .text s.text
  nullable_eq := by
    rw [asRead, nullable_textAsRead, text?_textAsRead, Option.bind_some, Strategy.ofText?_text]
    rfl

/-- A bare word that is read as a value is restored. -/
theorem Restores.of_word {w : String} (hwrite : write a = word w) (hbare : IsBare w.toList)
    (hnull : Word.isNull w = false) (hread : read (word w) = some a) : Restores write read a where
  wellFormed := hwrite ▸ .word hbare
  nullable_eq := by
    rw [hwrite, asRead, nullable, if_neg (by simp [hnull]), hread]
    rfl

/-- Numbers are restored if they have their size. -/
theorem restores_nat {bound n : Nat} (hn : n < bound) : Restores nat (nat? bound) n := by
  have hread := Word.unsigned?_toString hn
  exact .of_word rfl (isBare_toString n) (Word.isNull_of_unsigned? hread) hread

/-- Truth values are restored. -/
theorem restores_bool (b : Bool) : Restores bool bool? b := by
  cases b
  · exact .of_word rfl (by decide) (by decide) (by decide)
  · exact .of_word rfl (by decide) (by decide) (by decide)

/-- Lists of texts are restored. -/
theorem restores_texts (l : List String) : Restores texts texts? l where
  wellFormed := .list <| List.forall_mem_map.2 fun s _ => .text s
  nullable_eq := by
    have htexts : ((l.map text).map asRead).mapM text? = some l := by
      induction l with
      | nil => rfl
      | cons s l ih =>
          rw [List.map_cons, List.map_cons, List.mapM_cons, asRead, text?_textAsRead, ih]
          rfl
    rw [texts, asRead, nullable_list, texts?, htexts]
    rfl

/-! ## Entries of a map -/

/-- An entry is found under its name, and nothing under others. -/
theorem lookup_entry :
    (entry other write o).lookup name = if name = other then o.map write else none := by
  cases o with
  | none => simp [entry]
  | some a => by_cases h : name = other <;> simp [entry, h]

/-- An optional entry is one entry or none. -/
theorem fst_entry : ((entry name write o).map Prod.fst).Sublist [name] := by
  cases o with
  | none => exact List.nil_sublist _
  | some a => exact List.Sublist.refl _

/-- An entry is well-formed if its value can be restored. -/
theorem wellFormed_entry (h : ∀ a ∈ o, Restores write read a) :
    ∀ e ∈ entry name write o, e.2.WellFormed := by
  cases o with
  | none => nofun
  | some a => exact List.forall_mem_singleton.2 (h a rfl).wellFormed

/-- Maps are well formed if their names are keys. -/
theorem wellFormed_map (hnames : ∀ n ∈ names, IsKey n)
    (hfst : (entries.map Prod.fst).Sublist names) (hvalues : ∀ e ∈ entries, e.2.WellFormed) :
    (map entries).WellFormed :=
  .map (fun _ he => hnames _ (hfst.subset (List.mem_map_of_mem he))) hvalues

/-- Entries as they are read. -/
def entriesAsRead (entries : List (String × Node)) : List (String × Node) :=
  entries.map fun e => (e.1, e.2.asRead)

/-- Reading a map keeps what its names mean. -/
theorem lookup_entriesAsRead (name : String) (entries : List (String × Node)) :
    (entriesAsRead entries).lookup name = (entries.lookup name).map asRead := by
  induction entries with
  | nil => rfl
  | cons e entries ih =>
      rw [entriesAsRead, List.map_cons, List.lookup_cons, List.lookup_cons]
      split
      · rfl
      · exact ih

/-- The value of an entry is restored, whether there is one or not. -/
theorem lookUp?_entriesAsRead (h : ∀ a ∈ o, Restores write read a)
    (hlookup : entries.lookup name = o.map write) :
    lookUp? (entriesAsRead entries) name read = some o := by
  rw [lookUp?, lookup_entriesAsRead, hlookup]
  cases o with
  | none => rfl
  | some a => exact (h a rfl).nullable_eq

/-- A map is read if its names are among those that are expected, in their order. -/
theorem entries?_asRead (hnames : names.Nodup) (hfst : (entries.map Prod.fst).Sublist names) :
    entries? names (map entries).asRead = some (entriesAsRead entries) := by
  have hfound : (entriesAsRead entries).map Prod.fst = entries.map Prod.fst := by
    rw [entriesAsRead, List.map_map]
    rfl
  have hall : (entries.map Prod.fst).all names.contains = true :=
    List.all_eq_true.2 fun n hn => by simpa using hfst.subset hn
  have hread : (map entries).asRead = map (entriesAsRead entries) := by
    rw [asRead]
    rfl
  rw [hread, entries?]
  simp only [hfound, hall, hfst.nodup hnames, decide_true, Bool.and_self, if_true]

end Yaml.Node

open Yaml (Node IsKey)

/-! ## Documents -/

namespace Patch

/-- The numbers of a patch have their size. -/
structure Bounded (p : Patch) : Prop where
  k : ∀ n ∈ p.k, n < bound64
  heapDepth : ∀ n ∈ p.heapDepth, n < bound64
  maxWorkItems : ∀ n ∈ p.maxWorkItems, n < bound64

variable {p : Patch} {entries : List (String × Node)}

/-- Every entry of a patch has one of the names, and no name is used twice. -/
theorem fst_of_toNode (h : p.toNode = .map entries) : (entries.map Prod.fst).Sublist names := by
  cases h
  simp only [List.map_append]
  exact Node.fst_entry.append Node.fst_entry |>.append Node.fst_entry |>.append Node.fst_entry
    |>.append Node.fst_entry |>.append Node.fst_entry |>.append Node.fst_entry
    |>.append Node.fst_entry |>.append Node.fst_entry

/-- Under every name stands what the patch sets under it. -/
theorem lookup_of_toNode (h : p.toNode = .map entries) :
    entries.lookup "context" = p.context.map (fun s => .text s.text) ∧
      entries.lookup "k" = p.k.map Node.nat ∧
      entries.lookup "heap_depth" = p.heapDepth.map Node.nat ∧
      entries.lookup "reflection_log" = p.reflectionLog.map Node.text ∧
      entries.lookup "reflection_inference" = p.reflectionInference.map Node.text ∧
      entries.lookup "lambda" = p.lambda.map Node.bool ∧
      entries.lookup "reflection" = p.reflection.map Node.bool ∧
      entries.lookup "max_work_items" = p.maxWorkItems.map Node.nat ∧
      entries.lookup "entry_methods" = p.entryMethods.map Node.texts := by
  cases h
  simp [List.lookup_append, Node.lookup_entry]

/-- The node of a patch is well-formed. -/
theorem wellFormed_toNode (h : p.Bounded) : p.toNode.WellFormed := by
  refine Node.wellFormed_map (by decide +kernel) (fst_of_toNode rfl) ?_
  simp only [List.forall_mem_append]
  refine ⟨⟨⟨⟨⟨⟨⟨⟨?_, ?_⟩, ?_⟩, ?_⟩, ?_⟩, ?_⟩, ?_⟩, ?_⟩, ?_⟩
  · exact Node.wellFormed_entry fun s _ => Node.restores_strategy s
  · exact Node.wellFormed_entry fun n hn => Node.restores_nat (h.k n hn)
  · exact Node.wellFormed_entry fun n hn => Node.restores_nat (h.heapDepth n hn)
  · exact Node.wellFormed_entry fun s _ => Node.restores_text s
  · exact Node.wellFormed_entry fun s _ => Node.restores_text s
  · exact Node.wellFormed_entry fun b _ => Node.restores_bool b
  · exact Node.wellFormed_entry fun b _ => Node.restores_bool b
  · exact Node.wellFormed_entry fun n hn => Node.restores_nat (h.maxWorkItems n hn)
  · exact Node.wellFormed_entry fun l _ => Node.restores_texts l

/-- A patch is restored from its node. -/
theorem ofNode?_toNode (h : p.Bounded) : ofNode? p.toNode.asRead = some p := by
  obtain ⟨entries, hentries⟩ : ∃ entries, p.toNode = .map entries := ⟨_, rfl⟩
  obtain ⟨hcontext, hk, hheap, hlog, hinference, hlambda, hreflection, hbudget, hmethods⟩ :=
    lookup_of_toNode hentries
  rw [hentries, ofNode?, Node.entries?_asRead (by decide) (fst_of_toNode hentries)]
  simp only [Option.bind_eq_bind, Option.bind_some,
    Node.lookUp?_entriesAsRead (fun s _ => Node.restores_strategy s) hcontext,
    Node.lookUp?_entriesAsRead (fun n hn => Node.restores_nat (h.k n hn)) hk,
    Node.lookUp?_entriesAsRead (fun n hn => Node.restores_nat (h.heapDepth n hn)) hheap,
    Node.lookUp?_entriesAsRead (fun s _ => Node.restores_text s) hlog,
    Node.lookUp?_entriesAsRead (fun s _ => Node.restores_text s) hinference,
    Node.lookUp?_entriesAsRead (fun b _ => Node.restores_bool b) hlambda,
    Node.lookUp?_entriesAsRead (fun b _ => Node.restores_bool b) hreflection,
    Node.lookUp?_entriesAsRead (fun n hn => Node.restores_nat (h.maxWorkItems n hn)) hbudget,
    Node.lookUp?_entriesAsRead (fun l _ => Node.restores_texts l) hmethods]
  rfl

/-- A patch is read back as a part of a document. -/
theorem restores (h : p.Bounded) : Node.Restores toNode ofNode? p where
  wellFormed := wellFormed_toNode h
  nullable_eq := by
    obtain ⟨entries, hentries⟩ : ∃ entries, p.toNode.asRead = .map entries := ⟨_, by
      rw [toNode, Node.asRead]⟩
    have hread := ofNode?_toNode h
    rw [hentries] at hread ⊢
    rw [Node.nullable_map, hread]
    rfl

end Patch

namespace Document

/-- The numbers of a document have their size. -/
structure Bounded (d : Document) : Prop where
  version : ∀ n ∈ d.version, n < bound32
  patch : ∀ p ∈ d.patch, p.Bounded

variable {d : Document} {entries : List (String × Node)}

/-- A document has the names of documents only, in their order. -/
theorem fst_of_toNode (h : d.toNode = .map entries) : (entries.map Prod.fst).Sublist names := by
  cases h
  simp only [List.map_append, List.map_cons]
  exact (Node.fst_entry.cons_cons "version").append Node.fst_entry

/-- What the three entries of a document hold. -/
theorem lookup_of_toNode (h : d.toNode = .map entries) :
    entries.lookup "version" = some ((d.version.map Node.nat).getD (.word "null")) ∧
      entries.lookup "preset" = d.preset.map Node.text ∧
      entries.lookup "pta" = d.patch.map Patch.toNode := by
  cases h
  simp [List.lookup_cons, List.lookup_append, Node.lookup_entry]

/-- The node of a document is well-formed. -/
theorem wellFormed_toNode (h : d.Bounded) : d.toNode.WellFormed := by
  refine Node.wellFormed_map (by decide +kernel) (fst_of_toNode rfl) ?_
  simp only [List.cons_append, List.forall_mem_cons, List.forall_mem_append]
  refine ⟨?_, ?_, ?_⟩
  · cases hversion : d.version with
    | none => exact .word (by decide)
    | some n => exact (Node.restores_nat (h.version n hversion)).wellFormed
  · exact Node.wellFormed_entry fun s _ => Node.restores_text s
  · exact Node.wellFormed_entry fun p hp => Patch.restores (h.patch p hp)

/-- A version that is missing is written as null. -/
theorem lookUp?_version (h : d.Bounded) (hentries : d.toNode = .map entries) :
    Node.lookUp? (Node.entriesAsRead entries) "version" (Node.nat? bound32) = some d.version := by
  rw [Node.lookUp?, Node.lookup_entriesAsRead, (lookup_of_toNode hentries).1]
  cases hversion : d.version with
  | none =>
      simp only [Option.map_none, Option.getD_none, Option.map_some, Node.asRead]
      rfl
  | some n => exact (Node.restores_nat (h.version n hversion)).nullable_eq

/-- A document is restored from its node. -/
theorem ofNode?_toNode (h : d.Bounded) : ofNode? d.toNode.asRead = some d := by
  obtain ⟨entries, hentries⟩ : ∃ entries, d.toNode = .map entries := ⟨_, rfl⟩
  obtain ⟨-, hpreset, hpatch⟩ := lookup_of_toNode hentries
  have hfound : Node.entries? names (Node.map entries).asRead = _ :=
    Node.entries?_asRead (by decide) (fst_of_toNode hentries)
  rw [hentries]
  rw [Node.asRead] at hfound ⊢
  simp only [ofNode?, hfound, Option.bind_eq_bind, Option.bind_some, lookUp?_version h hentries,
    Node.lookUp?_entriesAsRead (fun s _ => Node.restores_text s) hpreset,
    Node.lookUp?_entriesAsRead (fun p hp => Patch.restores (h.patch p hp)) hpatch]
  rfl

/-- Documents are read back from their texts. -/
theorem ofYaml?_toYaml (h : d.Bounded) : ofYaml? d.toYaml = some d := by
  obtain ⟨entries, hentries⟩ : ∃ entries, d.toNode = .map entries := ⟨_, rfl⟩
  have hread := ofNode?_toNode h
  have hformed := wellFormed_toNode h
  rw [hentries] at hread hformed
  rw [ofYaml?, toYaml, hentries, Node.read?_render hformed]
  exact hread

end Document

/-! ## Options -/

namespace Options

/-- The numbers of some options have their size. -/
structure Bounded (o : Options) : Prop where
  k : o.k < bound64
  heapDepth : o.heapDepth < bound64
  maxWorkItems : ∀ n ∈ o.maxWorkItems, n < bound64

variable {o : Options}

/-- The document for options has numbers of their size if the options do. -/
theorem Bounded.document (h : o.Bounded) : (Document.ofOptions o).Bounded where
  version n hn := by
    cases hn
    decide
  patch p hp := by
    cases hp
    exact ⟨fun n hn => by cases hn; exact h.k, fun n hn => by cases hn; exact h.heapDepth,
      h.maxWorkItems⟩

end Options

namespace Format

/-- Where the document of some options is read as it was written, these options are restored if they
are valid; if not, what is wrong with them is reported. -/
theorem restore_save (F : Format) (o : Options)
    (h : F.read? (F.write (.ofOptions o)) = some (.ofOptions o)) :
    (o.validate = .ok () → F.restore (F.save o) = .ok o) ∧
      ∀ e, o.validate = .error e → F.restore (F.save o) = .error e := by
  have hrestore : F.restore (F.save o) = o.validate.map fun _ => o := by
    rw [restore, save, h]
    exact Document.options_ofOptions o
  rw [hrestore]
  refine ⟨fun hvalid => ?_, fun e hfault => ?_⟩
  · rw [hvalid]
    rfl
  · rw [hfault]
    rfl

/-- The provided format reads back what it has written. -/
theorem read?_write_yaml {d : Document} (h : d.Bounded) : yaml.read? (yaml.write d) = some d :=
  Document.ofYaml?_toYaml h

/-- Options with texts that have to be written in quotes, since a bare word would be read as
something else. -/
def quotedOptions : Options :=
  { Options.standard with
    reflectionLog := some "null"
    entryMethods := ["", "- x: #y", "a\nb"] }

theorem restore_save_quoted :
    Format.yaml.restore (Format.yaml.save quotedOptions) = .ok quotedOptions := by
  have hbounded : quotedOptions.Bounded := ⟨by decide, by decide, nofun⟩
  exact (restore_save .yaml quotedOptions (read?_write_yaml hbounded.document)).1 rfl

end Format

/-- Options are restored from their YAML texts if they are valid, and refused as they are refused
themselves if not. -/
theorem Options.ofYaml_toYaml {o : Options} (h : o.Bounded) :
    ofYaml o.toYaml = o.validate.map fun _ => o := by
  rw [ofYaml, toYaml, Format.restore, Format.save, Format.read?_write_yaml h.document]
  exact Document.options_ofOptions o

end PointsTo
