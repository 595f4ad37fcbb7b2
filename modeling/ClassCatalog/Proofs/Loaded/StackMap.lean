import Mathlib.Control.Monad.Basic
import ClassCatalog.Proofs.ClassFile.Layout
import ClassCatalog.Proofs.Loaded.Calls
import ClassCatalog.Proofs.StackMap.Codec

/-! Writing a stack map back.

Writing a table exchanges the contents of the last stack map among the attributes of the code, or adds
an attribute behind them (`Written`); the two counts and lengths around it are put right, and nothing
else of the body changes (`of_withStackMap`). The new body scans like the old one, and reading the stack
map gives the table that was written (`putStackMap_exact`). -/
namespace ClassCatalog
open ClassCatalog.Action ClassFile Image MethodLayout

namespace LoadedClass
variable {info : Bytes} {front inside back : List UInt8} {l : MethodLayout} {code : CodeLayout}

/-! ### The three changes of a body -/

theorem exists_exchange {a : Attribute} (ha : a.Fits) (h : info.toList = front ++ a.bytes ++ back)
    (table : List UInt8) :
    ∃ info' : Bytes,
      exchange info front.length table = some (info', (table.length : Int) - a.contents.bytes.length) ∧
        info'.toList = front ++ (⟨a.name, .raw table⟩ : Attribute).bytes ++ back := by
  have hlen := toNat_length (Contents.Fits.length_lt ha)
  have hold := (Attribute.holds_bytes.mp ⟨front, back, h, rfl⟩).2.1.long?
  -- The contents are exchanged first, then the length in front of them.
  have hcontents : info.toList =
      (front ++ wordBytes a.name ++ longBytes (UInt32.ofNat a.contents.bytes.length)) ++ a.contents.bytes ++
        back := by
    rw [h]
    simp [Attribute.bytes, sized]
  have hnew : (info.splice (front.length + 6) a.contents.bytes.length table).toList =
      front ++ wordBytes a.name ++ longBytes (UInt32.ofNat a.contents.bytes.length) ++ (table ++ back) := by
    have h := Bytes.toList_splice hcontents table
    simp only [List.length_append, wordBytes_length, longBytes_length, Nat.add_assoc, Nat.reduceAdd] at h
    rw [h, List.append_assoc]
  have hlength := Bytes.toList_setLong hnew (UInt32.ofNat table.length)
  rw [List.length_append, wordBytes_length] at hlength
  refine ⟨_, ?_, hlength.trans ?_⟩
  · simp only [exchange, hold, hlen, Option.bind_eq_bind, Option.bind_some, Option.pure_def]
  · simp [Attribute.bytes, sized, Contents.bytes]

theorem exists_append {count : UInt16} (h : info.toList = front ++ wordBytes count ++ inside ++ back)
    (hstop : l.codeEnd? info = some (front.length + 2 + inside.length))
    (hcount : code.attributeCount = front.length) (name : UInt16) (table : List UInt8) :
    ∃ info' : Bytes, append info l code name table = some (info', ((6 + table.length : Nat) : Int)) ∧
      info'.toList =
        front ++ wordBytes (count + 1) ++ (inside ++ (⟨name, .raw table⟩ : Attribute).bytes) ++ back := by
  have hadded : wordBytes name ++ longBytes (UInt32.ofNat table.length) ++ table =
      (⟨name, .raw table⟩ : Attribute).bytes := by
    simp [Attribute.bytes, sized, Contents.bytes]
  have hsplit : info.toList = (front ++ wordBytes count ++ inside) ++ [] ++ back := by
    rw [h, List.append_nil]
  have hspliced := Bytes.toList_splice hsplit (⟨name, .raw table⟩ : Attribute).bytes
  simp only [List.length_append, wordBytes_length, List.length_nil] at hspliced
  have hfront :
      (info.splice (front.length + 2 + inside.length) 0 (⟨name, .raw table⟩ : Attribute).bytes).toList =
        front ++ wordBytes count ++ (inside ++ (⟨name, .raw table⟩ : Attribute).bytes ++ back) := by
    rw [hspliced]
    simp only [List.append_assoc]
  have hword := Bytes.word?_eq_some_iff_holds.mpr ⟨front, _, hfront, rfl⟩
  refine ⟨_, ?_, (Bytes.toList_setWord hfront (count + 1)).trans (by simp only [List.append_assoc])⟩
  simp only [append, hstop, hadded, hcount, hword, Option.bind_eq_bind, Option.bind_some, Option.pure_def,
    Attribute.bytes_length, Contents.bytes]

theorem of_grow {name : UInt16} {old : Nat} {growth : Int} {info' : Bytes} (hold : old < lengthLimit)
    (h : info.toList = front ++ wordBytes name ++ longBytes (UInt32.ofNat old) ++ back)
    (hheader : code.header = front.length) (hgrow : grow info code growth = some info') :
    ∃ new : Nat, (new : Int) = old + growth ∧ new < lengthLimit ∧
      info'.toList = front ++ wordBytes name ++ longBytes (UInt32.ofNat new) ++ back := by
  have hat : code.header + 2 = (front ++ wordBytes name).length := by
    rw [hheader, List.length_append, wordBytes_length]
  have hlong := Bytes.long?_eq_some_iff_holds.mpr ⟨front ++ wordBytes name, back, h, rfl⟩
  unfold grow at hgrow
  simp only [hat, hlong, toNat_length hold, Option.bind_eq_bind, Option.bind_some, Option.pure_def] at hgrow
  split at hgrow
  · rename_i hrange
    cases hgrow
    have hlimit : (lengthLimit : Int) = 4294967296 := rfl
    exact ⟨_, Int.toNat_of_nonneg hrange.1, by omega, Bytes.toList_setLong h _⟩
  · cases hgrow

/-! ### Writing a table into code -/

/-- The attributes of code before and after a table has been written: the last stack map has new contents,
or one has been added at the end, or there was none and nothing to write. -/
inductive Written (names : AttributeNames) (t : StackMap.Table) :
    List Attribute → List Attribute → Prop where
  | exchanged (before after : List Attribute) (a : Attribute)
      (ha : names.kindOf? a.name = some .stackMapTable)
      (hlast : ∀ b ∈ after, names.kindOf? b.name ≠ some .stackMapTable) :
      Written names t (before ++ a :: after) (before ++ ⟨a.name, .raw t.encode⟩ :: after)
  | added (as : List Attribute) (name : UInt16)
      (hnone : ∀ a ∈ as, names.kindOf? a.name ≠ some .stackMapTable)
      (hname : names.indexOf? .stackMapTable = some name) (ht : t.frames ≠ []) :
      Written names t as (as ++ [⟨name, .raw t.encode⟩])
  | nothing (as : List Attribute) (hnone : ∀ a ∈ as, names.kindOf? a.name ≠ some .stackMapTable)
      (ht : t.frames = []) : Written names t as as

variable {k : LoadedClass} {c : Code} {t : StackMap.Table}

/-- Code whose contents have been exchanged, with the length in front of them put right. -/
theorem of_grow_code {as : List Attribute} {growth : Int} {info' : Bytes} (hc : c.Fits)
    (h : info.toList = front ++ wordBytes c.name ++ longBytes (UInt32.ofNat c.contents.length) ++
      (({ c with attributes := as } : Code).contents ++ back))
    (hgrowth : growth = (({ c with attributes := as } : Code).contents.length : Int) - c.contents.length)
    (hgrow : grow info (spansAt front.length c) growth = some info') :
    ({ c with attributes := as } : Code).contents.length < lengthLimit ∧
      info'.toList = front ++ ({ c with attributes := as } : Code).asAttribute.bytes ++ back := by
  obtain ⟨new, hnew, hlt, hbytes⟩ := of_grow hc.contents h rfl hgrow
  have hlen : new = ({ c with attributes := as } : Code).contents.length := by omega
  subst hlen
  refine ⟨hlt, hbytes.trans ?_⟩
  simp only [Attribute.bytes, Code.asAttribute, sized, Contents.bytes, List.append_assoc]

theorem Written.length_le {names : AttributeNames} {old as : List Attribute} (h : Written names t old as) :
    as.length ≤ old.length + 1 := by
  cases h with
  | exchanged before after a ha hlast => simp
  | added _ name hnone hname ht => simp
  | nothing _ hnone ht => exact Nat.le_succ _

theorem Written.fits {names : AttributeNames} {old as : List Attribute} (h : Written names t old as)
    (hold : ∀ a ∈ old, a.Fits)
    (ht : ∀ name, (⟨name, .raw t.encode⟩ : Attribute) ∈ as → t.encode.length < lengthLimit) :
    ∀ a ∈ as, a.Fits := by
  cases h with
  | exchanged before after a ha hlast =>
    rw [List.forall_mem_append, List.forall_mem_cons] at hold ⊢
    exact ⟨hold.1, ht a.name (by simp), hold.2.2⟩
  | added _ name hnone hname hframes =>
    exact List.forall_mem_append.mpr ⟨hold, List.forall_mem_singleton.mpr (ht name (by simp))⟩
  | nothing _ hnone hframes => exact hold

/-- Code with a table written into it fits if its contents are not too long. -/
theorem Written.fits_code {as : List Attribute} (hwritten : Written k.attributeNames t c.attributes as)
    (hc : c.Fits) (hroom : c.attributes.length + 1 < countLimit)
    (hcontents : ({ c with attributes := as } : Code).contents.length < lengthLimit) :
    ({ c with attributes := as } : Code).Fits := by
  have hlength := hwritten.length_le
  refine ⟨hc.bytecode, hc.handlers, ?_, hwritten.fits hc.attributes fun name hmem => ?_, hcontents⟩
  · show as.length < countLimit
    omega
  · -- The table is a part of the contents, so that it is not too long either.
    obtain ⟨before, after, rfl⟩ := List.append_of_mem hmem
    rw [Code.contents_length] at hcontents
    simp only [List.flatMap_append, List.flatMap_cons, List.length_append, Attribute.bytes_length,
      Contents.bytes] at hcontents
    omega

/-- The ways in which a write can succeed. -/
theorem withStackMap_cases {r : Option Bytes} (h : k.withStackMap info l code t = .ok r) :
    (l.stackMap = none ∧ t.frames = [] ∧ r = none) ∨
      ∃ info₁ growth info', grow info₁ code growth = some info' ∧ r = some info' ∧
        ((∃ header, l.stackMap = some header ∧ exchange info header t.encode = some (info₁, growth)) ∨
          ∃ name, l.stackMap = none ∧ t.frames ≠ [] ∧ k.attributeNames.indexOf? .stackMapTable = some name ∧
            append info l code name t.encode = some (info₁, growth)) := by
  unfold withStackMap at h
  dsimp only at h
  split at h
  · rename_i header hheader
    split at h
    · cases h
    · rename_i info₁ growth hexchange
      split at h
      · rename_i info' hgrow
        cases h
        exact .inr ⟨info₁, growth, info', hgrow, rfl, .inl ⟨header, hheader, hexchange⟩⟩
      · cases h
  · rename_i hnone
    split at h
    · rename_i hempty
      cases h
      exact .inl ⟨hnone, List.isEmpty_iff.mp hempty, rfl⟩
    · rename_i hempty
      split at h
      · cases h
      · rename_i name hname
        split at h
        · cases h
        · rename_i info₁ growth happend
          split at h
          · rename_i info' hgrow
            cases h
            exact .inr ⟨info₁, growth, info', hgrow, rfl,
              .inr ⟨name, hnone, mt List.isEmpty_iff.mpr hempty, hname, happend⟩⟩
          · cases h

theorem toList_code (h : info.toList = front ++ c.asAttribute.bytes ++ back) :
    info.toList = front ++ wordBytes c.name ++ longBytes (UInt32.ofNat c.contents.length) ++ c.front ++
      wordBytes (UInt16.ofNat c.attributes.length) ++ c.attributes.flatMap Attribute.bytes ++ back := by
  rw [h]
  simp only [Attribute.bytes, Code.asAttribute, sized, Contents.bytes, Code.contents, counted,
    List.append_assoc]

theorem contents_with (c : Code) (as : List Attribute) :
    ({ c with attributes := as } : Code).contents = c.front ++ counted Attribute.bytes as := rfl

/-- Exchanging the contents of an attribute exchanges it among the contents of the code. -/
theorem of_exchange {before after : List Attribute} {a : Attribute} {table : List UInt8} {info₁ : Bytes}
    {growth : Int} (h : info.toList = front ++ c.asAttribute.bytes ++ back) (hc : c.Fits)
    (hsplit : c.attributes = before ++ a :: after)
    (hexchange : exchange info
      (front.length + 8 + c.front.length + (before.flatMap Attribute.bytes).length) table =
        some (info₁, growth)) :
    info₁.toList = front ++ wordBytes c.name ++ longBytes (UInt32.ofNat c.contents.length) ++
        (({ c with attributes := before ++ ⟨a.name, .raw table⟩ :: after } : Code).contents ++ back) ∧
      growth =
        (({ c with attributes := before ++ ⟨a.name, .raw table⟩ :: after } : Code).contents.length : Int) -
          c.contents.length := by
  have ha : a.Fits := hc.attributes a (by simp [hsplit])
  have hparts := toList_code h
  rw [hsplit] at hparts
  simp only [List.flatMap_append, List.flatMap_cons, ← List.append_assoc] at hparts
  rw [List.append_assoc _ (after.flatMap Attribute.bytes)] at hparts
  obtain ⟨info', hexchange', hbytes⟩ := exists_exchange ha hparts table
  simp only [List.length_append, wordBytes_length, longBytes_length] at hexchange'
  have hheader : front.length + 8 + c.front.length + (before.flatMap Attribute.bytes).length =
      front.length + 2 + 4 + c.front.length + 2 + (before.flatMap Attribute.bytes).length := by omega
  rw [hheader, hexchange'] at hexchange
  cases hexchange
  constructor
  · rw [hbytes, contents_with c (before ++ _ :: after)]
    simp only [counted, List.length_append, List.length_cons, List.flatMap_append, List.flatMap_cons,
      List.append_assoc]
  · have hfront : ({ c with attributes := before ++ ⟨a.name, .raw table⟩ :: after } : Code).front = c.front := rfl
    simp only [Code.contents_length, hfront, hsplit, List.flatMap_append, List.flatMap_cons, List.length_append,
      Attribute.bytes_length, Contents.bytes]
    omega

/-- Appending an attribute puts it at the end of the contents of the code. -/
theorem of_append {name : UInt16} {table : List UInt8} {info₁ : Bytes} {growth : Int}
    (h : info.toList = front ++ c.asAttribute.bytes ++ back) (hc : c.Fits)
    (happend : append info (ofCode k.attributeNames front.length c empty) (spansAt front.length c) name
      table = some (info₁, growth)) :
    info₁.toList = front ++ wordBytes c.name ++ longBytes (UInt32.ofNat c.contents.length) ++
        (({ c with attributes := c.attributes ++ [⟨name, .raw table⟩] } : Code).contents ++ back) ∧
      growth =
        (({ c with attributes := c.attributes ++ [⟨name, .raw table⟩] } : Code).contents.length : Int) -
          c.contents.length := by
  have hend := codeEnd_ofCode k.attributeNames empty ⟨front, back, h, rfl⟩ hc
  have hlen := c.contents_length
  have hparts := toList_code h
  have hfront : (front ++ wordBytes c.name ++ longBytes (UInt32.ofNat c.contents.length) ++ c.front).length =
      front.length + 6 + c.front.length := by
    simp only [List.length_append, wordBytes_length, longBytes_length]
  have hstop : front.length + c.asAttribute.bytes.length =
      (front ++ wordBytes c.name ++ longBytes (UInt32.ofNat c.contents.length) ++ c.front).length + 2 +
        (c.attributes.flatMap Attribute.bytes).length := by
    rw [hfront, c.asAttribute_length]
    omega
  rw [hstop] at hend
  have hcount : (spansAt front.length c).attributeCount = _ := hfront.symm
  obtain ⟨info', happend', hbytes⟩ := exists_append hparts hend hcount name table
  rw [happend'] at happend
  cases happend
  constructor
  · have hnumber : UInt16.ofNat (c.attributes.length + 1) = UInt16.ofNat c.attributes.length + 1 :=
      UInt16.ofNat_add ..
    rw [hbytes, contents_with c (c.attributes ++ [_])]
    simp only [counted, List.length_append, List.length_singleton, hnumber, List.flatMap_append,
      List.flatMap_singleton, List.append_assoc]
  · have hfront : ({ c with attributes := c.attributes ++ [⟨name, .raw table⟩] } : Code).front = c.front := rfl
    simp only [Code.contents_length, hfront, List.flatMap_append, List.flatMap_singleton, List.length_append,
      Attribute.bytes_length, Contents.bytes]
    omega

/-- What a write into written code leaves. -/
theorem of_withStackMap {r : Option Bytes} (hc : c.Fits) (hroom : c.attributes.length + 1 < countLimit)
    (h : info.toList = front ++ c.asAttribute.bytes ++ back)
    (hput : k.withStackMap info (ofCode k.attributeNames front.length c empty) (spansAt front.length c) t =
      .ok r) :
    ∃ as, Written k.attributeNames t c.attributes as ∧ ({ c with attributes := as } : Code).Fits ∧
      (r.getD info).toList = front ++ ({ c with attributes := as } : Code).asAttribute.bytes ++ back := by
  have hlayout := stackMap_ofCode k.attributeNames front.length c
  rcases withStackMap_cases hput with ⟨hnone, ht, rfl⟩ | ⟨info₁, growth, info', hgrow, rfl, hchange⟩
  · rcases hlayout with ⟨_, hkinds⟩ | ⟨before, a, after, _, _, _, hsome⟩
    · exact ⟨c.attributes, .nothing _ hkinds ht, hc, h⟩
    · rw [hnone] at hsome
      cases hsome
  · -- It is enough to follow the contents: the length in front of them comes right with the last change.
    suffices hwrite : ∃ as, Written k.attributeNames t c.attributes as ∧
        info₁.toList = front ++ wordBytes c.name ++ longBytes (UInt32.ofNat c.contents.length) ++
          (({ c with attributes := as } : Code).contents ++ back) ∧
        growth = (({ c with attributes := as } : Code).contents.length : Int) - c.contents.length by
      obtain ⟨as, hwritten, hcontents, hgrowth⟩ := hwrite
      obtain ⟨hlt, hbytes⟩ := of_grow_code hc hcontents hgrowth hgrow
      exact ⟨as, hwritten, hwritten.fits_code hc hroom hlt, hbytes⟩
    rcases hchange with ⟨header, hsome, hexchange⟩ | ⟨name, hnone, hframes, hname, happend⟩
    · rcases hlayout with ⟨hnone, _⟩ | ⟨before, a, after, hsplit, ha, hlast, hsome'⟩
      · rw [hnone] at hsome
        cases hsome
      · rw [hsome'] at hsome
        cases hsome
        rw [hsplit]
        exact ⟨_, .exchanged before after a ha hlast, of_exchange h hc hsplit hexchange⟩
    · rcases hlayout with ⟨_, hkinds⟩ | ⟨before, a, after, _, _, _, hsome⟩
      · exact ⟨_, .added _ name hkinds hname hframes, of_append h hc happend⟩
      · rw [hnone] at hsome
        cases hsome

/-! ### Reading and writing -/

variable {i : Nat} {told : Journal} {s : Scene LoadedClass}

/-- Reading the stack map of a body without one. -/
theorem start_stackMap_of_none (hk : k.Current) (hinfo : k.info? i = some info)
    (hscan : MethodLayout.scan info k.attributeNames = .ok l) (hnone : l.stackMap = none) :
    ((stackMap i).start ⟨k, told⟩).1 = .ok .empty := by
  unfold stackMap
  rw [start_state_bind]
  rw [start_bind, start_codeLayout hk told hinfo hscan]
  cases l.code with
  | none => rfl
  | some code =>
    dsimp only [Option.map_some]
    rw [hnone]
    rfl

/-- Reading the stack map of a body in which a table is written. -/
theorem start_stackMap_of_holds {header : Nat} {name : UInt16} (hk : k.Current) (hinfo : k.info? i = some info)
    (hscan : MethodLayout.scan info k.attributeNames = .ok l) (hcode : l.code = some code)
    (hheader : l.stackMap = some header) (ht : t.WellFormed) (hlt : t.encode.length < lengthLimit)
    (hat : info.Holds header (⟨name, .raw t.encode⟩ : Attribute).bytes) :
    ((stackMap i).start ⟨k, told⟩).1 = .ok t := by
  obtain ⟨_, hlength, htable⟩ := Attribute.holds_bytes.mp hat
  have hdecode : StackMap.Table.decode k.name t.encode = .ok t :=
    StackMap.Table.decode_eq_ok_iff.mpr ⟨ht, List.prefix_rfl⟩
  have hslice : info.slice? (header + 6) t.encode.length = some t.encode.toArray := htable.slice?
  unfold stackMap
  rw [start_state_bind]
  rw [start_bind, start_codeLayout hk told hinfo hscan, hcode]
  dsimp only [Option.map_some]
  rw [hheader]
  dsimp only
  rw [hlength.long?]
  dsimp only [Option.map_some, Option.getD_some, Contents.bytes]
  rw [toNat_length hlt, hslice]
  exact hdecode

/-- What a write that succeeds has done. -/
theorem of_putStackMap (hk : k.Current) (hinfo : k.info? i = some info)
    (hscan : MethodLayout.scan info k.attributeNames = .ok l) (hcode : l.code = some code)
    (hput : (putStackMap i t).start ⟨k, told⟩ = (.ok (), s)) :
    ∃ r, k.withStackMap info l code t = .ok r ∧ s.state.attributeNames = k.attributeNames ∧
      s.state.info? i = some (r.getD info) ∧ ∀ j, i ≠ j → s.state.info? j = k.info? j := by
  unfold putStackMap at hput
  rw [start_state_bind] at hput
  rw [start_bind, start_codeLayout hk told hinfo hscan, hcode] at hput
  dsimp only [Option.map_some] at hput
  cases hwrite : k.withStackMap info l code t with
  | error e =>
    rw [hwrite] at hput
    cases hput
  | ok r =>
    rw [hwrite] at hput
    refine ⟨r, rfl, ?_⟩
    cases r with
    | none =>
      cases hput
      exact ⟨rfl, (info?_remember ..).trans hinfo, fun j _ => info?_remember ..⟩
    | some info' =>
      obtain ⟨hsize, l', _, rfl⟩ := of_replaceBody hput
      refine ⟨rfl, info?_withBody hsize info' l', fun j hj => ?_⟩
      exact (info?_setMethod_of_ne hj ..).trans (info?_remember ..)

/-- A name that is registered for nothing but stack maps names one. -/
theorem kindOf?_of_indexOf? {names : AttributeNames} {index : UInt16}
    (hindex : names.indexOf? .stackMapTable = some index)
    (honly : ∀ kind, (index, kind) ∈ names.entries → kind = .stackMapTable) :
    names.kindOf? index = some .stackMapTable := by
  obtain ⟨⟨index', kind⟩, hfind, rfl⟩ := Option.map_eq_some_iff.mp hindex
  have hkind : kind = .stackMapTable := by simpa using List.find?_some hfind
  have hmem := List.mem_of_find?_eq_some hfind
  -- So there is an entry of this index, and the first one can only be of this kind.
  obtain ⟨e, he⟩ : ∃ e, names.entries.find? (fun e => e.1 = index') = some e :=
    Option.isSome_iff_exists.mp (List.find?_isSome.mpr ⟨_, hmem, by simp⟩)
  have hindex' : e.1 = index' := by simpa using List.find?_some he
  have hentry := honly e.2 (hindex' ▸ List.mem_of_find?_eq_some he)
  rw [AttributeNames.kindOf?, he, Option.map_some, hentry]

/-- A table that has been written is the last stack map among the attributes, or there is none of either. -/
theorem Written.last {names : AttributeNames} {old as : List Attribute} (h : Written names t old as)
    (hname : ∀ index, names.indexOf? .stackMapTable = some index →
      ∀ kind, (index, kind) ∈ names.entries → kind = .stackMapTable) :
    ((∀ a ∈ as, names.kindOf? a.name ≠ some .stackMapTable) ∧ t.frames = []) ∨
      ∃ before name after, as = before ++ ⟨name, .raw t.encode⟩ :: after ∧
        names.kindOf? name = some .stackMapTable ∧ ∀ b ∈ after, names.kindOf? b.name ≠ some .stackMapTable := by
  cases h with
  | exchanged before after a ha hlast => exact .inr ⟨before, a.name, after, rfl, ha, hlast⟩
  | added _ name hnone hindex ht =>
    exact .inr ⟨old, name, [], rfl, kindOf?_of_indexOf? hindex (hname name hindex), nofun⟩
  | nothing _ hnone ht => exact .inl ⟨hnone, ht⟩

/-- Reading the stack map from a body into which one has been written. -/
theorem start_stackMap_of_written {as : List Attribute} {m : Image.Method} {c' : Code} (hk : k.Current)
    (hinfo : k.info? i = some info) (hstands : Stands info k.attributeNames m c')
    (hwritten : Written k.attributeNames t as c'.attributes)
    (hname : ∀ index, k.attributeNames.indexOf? .stackMapTable = some index →
      ∀ kind, (index, kind) ∈ k.attributeNames.entries → kind = .stackMapTable)
    (ht : t.WellFormed) : ((stackMap i).start ⟨k, told⟩).1 = .ok t := by
  rcases hwritten.last hname with ⟨hnone, hframes⟩ | ⟨before, name, after, hsplit, hkind, hlast⟩
  · have hempty : t = .empty := congrArg StackMap.Table.mk hframes
    rw [hempty]
    exact start_stackMap_of_none hk hinfo hstands.scan_eq (noteAll_stackMap hnone _ _)
  · have hheader : (ofCode k.attributeNames m.front.length c' empty).stackMap =
        some (m.front.length + 8 + c'.front.length + (before.flatMap Attribute.bytes).length) := by
      rw [ofCode, hsplit]
      exact noteAll_stackMap_last hkind hlast _ _
    have hc' := hstands.fits.code c' hstands.code
    have hlt : t.encode.length < lengthLimit :=
      Contents.Fits.length_lt (hc'.attributes ⟨name, .raw t.encode⟩ (by simp [hsplit]))
    obtain ⟨_, _, hcontents⟩ := Attribute.holds_bytes.mp hstands.holds_code
    obtain ⟨_, _, _, _, _, _, _, hat⟩ := Code.holds_contents.mp hcontents
    rw [hsplit, List.flatMap_append, List.flatMap_cons, Bytes.holds_append, Bytes.holds_append,
      Nat.add_right_comm (m.front.length + 6), Nat.add_assoc m.front.length] at hat
    exact start_stackMap_of_holds hk hinfo hstands.scan_eq (code_ofCode ..) hheader ht hlt hat.2.1

/-- Writing a stack map back is exact. For a method of regular form in a class that can be come to, a
well-formed table that has been written is the one that is read; the body is the old one but for the stack
map among the attributes of its code and the counts and lengths around it; all other bodies stay. -/
theorem putStackMap_exact (hk : k.Reachable) (hinfo : k.info? i = some info)
    (hregular : Regular info k.attributeNames l code)
    (hroom : ∀ count, wordAt info code.attributeCount = .ok count → count < 65535)
    (hname : ∀ index, k.attributeNames.indexOf? .stackMapTable = some index →
      ∀ kind, (index, kind) ∈ k.attributeNames.entries → kind = .stackMapTable)
    (ht : t.WellFormed) (hput : (putStackMap i t).start ⟨k, told⟩ = (.ok (), s)) :
    ((stackMap i).start s).1 = .ok t ∧
      (∃ m c as info' slack, Stands info k.attributeNames m c ∧ info.toList = m.bytes ++ slack ∧
        Written k.attributeNames t c.attributes as ∧ s.state.info? i = some info' ∧
        Stands info' k.attributeNames { m with code := some { c with attributes := as } }
          { c with attributes := as } ∧
        info'.toList = ({ m with code := some { c with attributes := as } } : Image.Method).bytes ++ slack) ∧
      ∀ j, i ≠ j → s.state.info? j = k.info? j := by
  obtain ⟨m, c, hstands, rfl, rfl⟩ := hregular.exists_stands
  have hc := hstands.fits.code c hstands.code
  have hcount : wordAt info (spansAt m.front.length c).attributeCount = .ok c.attributes.length := by
    obtain ⟨_, _, hcontents⟩ := Attribute.holds_bytes.mp hstands.holds_code
    obtain ⟨_, _, _, _, _, _, hcount, _⟩ := Code.holds_contents.mp hcontents
    rw [← toNat_count hc.count]
    exact wordAt_of_holds hcount
  have hroom' : c.attributes.length + 1 < countLimit := Nat.succ_lt_succ (hroom _ hcount)
  obtain ⟨nothing, slack, hbytes, hfront⟩ := hstands.holds
  rw [List.eq_nil_of_length_eq_zero hfront, List.nil_append] at hbytes
  have hparts : info.toList =
      m.front ++ c.asAttribute.bytes ++ (m.after.flatMap Attribute.bytes ++ slack) := by
    rw [hbytes, Image.Method.bytes_of_code hstands.code, List.append_assoc]
  obtain ⟨r, hwrite, hnames, hinfo', hothers⟩ :=
    of_putStackMap hk.current hinfo hstands.scan_eq (code_ofCode ..) hput
  obtain ⟨as, hwritten, hfits, hbytes'⟩ := of_withStackMap hc hroom' hparts hwrite
  have hnew : (r.getD info).toList =
      ({ m with code := some { c with attributes := as } } : Image.Method).bytes ++ slack := by
    rw [hbytes', Image.Method.bytes_of_code rfl, Image.Method.front_with_code hstands.code,
      List.append_assoc _ _ slack]
  have hstands' : Stands (r.getD info) k.attributeNames { m with code := some { c with attributes := as } }
      { c with attributes := as } := by
    refine ⟨rfl, ⟨?_, hstands.fits.before, ?_, hstands.fits.after⟩, ⟨[], slack, hnew, rfl⟩, hstands.named,
      hstands.others⟩
    · have hlength := hstands.fits.count
      rw [Image.Method.attributes_of_code hstands.code, List.length_append, List.length_cons] at hlength
      rwa [Image.Method.attributes_of_code rfl, List.length_append, List.length_cons]
    · intro c' hc'
      cases hc'
      exact hfits
  refine ⟨?_, ⟨m, c, as, r.getD info, slack, hstands, hbytes, hwritten, hinfo', hstands', hnew⟩, hothers⟩
  have hcurrent : s.state.Current := hk.current.steps ((putStackMap_steps i t).of_start hput)
  rw [← hnames] at hstands' hwritten hname
  exact start_stackMap_of_written hcurrent hinfo' hstands' hwritten hname ht

/-! ### A small class -/

/-- A single instruction and an empty stack map. -/
def sampleCode : Code := ⟨1, 1, 1, [0xb1], [], [⟨2, .raw StackMap.Table.empty.encode⟩]⟩

def sampleMethod : Image.Method := ⟨0, 3, 4, [], some sampleCode, []⟩

/-- A class with this method alone, in which constants 1 and 2 name code and stack maps. -/
def sampleClass : LoadedClass :=
  let record : Record :=
    { name := "A", superName := none, interfaces := [], access := 0
      methods := #[⟨"m", "()V", 0, 0, sampleMethod.bytes.length, none, none⟩]
      references := [], nested := [], sections := ⟨0, 0, 0, 0, 0, 0⟩, pool := ⟨#[]⟩
      bytes := sampleMethod.bytes.toArray }
  after [.addAttributeName 1 .code, .addAttributeName 2 .stackMapTable] (new record Loader.root (.supplied 0))

def sampleTable : StackMap.Table := ⟨[.same 0 false]⟩

theorem putStackMap_exact_sample :
    ∃ s, (putStackMap 0 sampleTable).start ⟨sampleClass, []⟩ = (.ok (), s) ∧
      ((stackMap 0).start s).1 = .ok sampleTable := by
  have hput : ((putStackMap 0 sampleTable).start ⟨sampleClass, []⟩).1 = .ok () := by decide +kernel
  have hnames : sampleClass.attributeNames = ⟨[(1, .code), (2, .stackMapTable)]⟩ := by decide +kernel
  have hinfo : sampleClass.info? 0 = some sampleMethod.bytes.toArray := by decide +kernel
  have hcount : wordAt sampleMethod.bytes.toArray (spansAt 8 sampleCode).attributeCount = .ok 1 := by
    decide +kernel
  have hregular : Regular sampleMethod.bytes.toArray sampleClass.attributeNames
      (ofCode sampleClass.attributeNames 8 sampleCode empty) (spansAt 8 sampleCode) := by
    refine ⟨by decide +kernel, by decide +kernel, ⟨1, [(some .code, 8)], 35, ?_⟩,
      ⟨1, [(some .stackMapTable, 27)], 35, ?_⟩⟩
    · decide +kernel
    · decide +kernel
  have hreachable : sampleClass.Reachable := ⟨_, _, _, _, rfl⟩
  refine ⟨_, Prod.ext hput rfl, ?_⟩
  refine (putStackMap_exact hreachable hinfo hregular ?_ ?_ (by decide) (Prod.ext hput rfl)).1
  · intro count h
    rw [hcount] at h
    cases h
    decide
  · intro index hindex kind hmem
    rw [hnames] at hindex hmem
    cases hindex
    simpa using hmem

end LoadedClass
end ClassCatalog
