import DeployClient.Proofs.Adding

/-!
A node that is let in.

What passes all filters, also that of the names taken, claims its name and is written after the
directories above it. So from here on the run of an operation is that of its last steps.
-/

namespace DeployClient.Archive

open Tar (Member)

variable {w : Writer} {fs : FileSystem} {source base : Path} {node : Node} {path : Bytes}
  {kind : Kind} {t : Bytes} {e : Entry} {content data : Bytes}

/-! ### Writing, step by step -/

lemma openNode_of_read (h : fs.read source = .ok content) :
    ∃ opened, fs.openNode source = .ok opened ∧ opened.contents = .ok content := by
  unfold FileSystem.read at h
  split at h
  · next opened hopen => exact ⟨opened, hopen, h⟩
  · simp at h

lemma put_eq (hsink : w.sinkFault = none) (m : Member) : put m w = .ok () (w.append m) := by
  rw [put, bind_of_ok (show (get : Writing Writer) w = .ok w w from rfl), hsink]
  rfl

lemma write_file (hk : e.kind = .file) : write fs e node w = (do
    writeFile fs e node
    event (.archived e.name e.kind e.size)) w := by
  unfold write
  rw [hk]

/-- Of a file that cannot be opened nothing is written. -/
lemma write_unopened (hk : e.kind = .file) {os : OsError}
    (hopen : fs.openNode e.source = .error os) (node : Node) (w : Writer) :
    write fs e node w = .error (.io (.os os)) w := by
  have hwrite : writeFile fs e node w = .error (.io (.os os)) w := by
    unfold writeFile
    rw [hopen]
    rfl
  rw [write_file hk, bind_of_error hwrite]

/-- What copying comes to, for every length of the file. -/
lemma write_read (hk : e.kind = .file) (hsink : w.sinkFault = none) (node : Node)
    (hread : fs.read e.source = .ok content) : write fs e node w
    = if content.length < e.size then
        .error (.shortWrite e.source e.size content.length) (w.append (memberOf e node content))
      else .ok () ((w.append (memberOf e node (content.take e.size))).note
        (.event (.archived e.name e.kind e.size))) := by
  obtain ⟨opened, hopen, hcontent⟩ := openNode_of_read hread
  have hcopy : writeFile fs e node w = (do
      put (memberOf e node (content.take e.size))
      if (content.take e.size).length < e.size then
        throw (Error.shortWrite e.source e.size (content.take e.size).length) : Writing Unit) w
      := by
    unfold writeFile
    rw [hopen]
    simp only [ofOs, pure_bind, hcontent]
  rw [write_file hk]
  by_cases hlt : content.length < e.size
  · have htake : content.take e.size = content := List.take_of_length_le (by omega)
    have hwrite : writeFile fs e node w = .error (.shortWrite e.source e.size content.length)
        (w.append (memberOf e node content)) := by
      rw [hcopy, htake, bind_of_ok (put_eq hsink _), if_pos hlt]
      rfl
    rw [bind_of_error hwrite, if_pos hlt]
  · have htake : ¬ (content.take e.size).length < e.size := by
      rw [List.length_take]
      omega
    have hwrite : writeFile fs e node w
        = .ok () (w.append (memberOf e node (content.take e.size))) := by
      rw [hcopy, bind_of_ok (put_eq hsink _), if_neg htake]
      rfl
    rw [bind_of_ok hwrite, if_neg hlt]
    rfl

/-- What its source delivers is written, whatever the entry is. -/
lemma write_delivered (hsink : w.sinkFault = none) (node : Node) (hd : Delivers fs e data) :
    write fs e node w = .ok () ((w.append (memberOf e node data)).note
      (.event (.archived e.name e.kind e.size))) := by
  unfold Delivers at hd
  split at hd
  · next hk =>
    obtain ⟨content, hread, hle, rfl⟩ := hd
    rw [write_read hk hsink node hread, if_neg (Nat.not_lt.mpr hle)]
  · next hk =>
    obtain rfl := hd
    have hput : write fs e node w = (do
        put (memberOf e node [])
        event (.archived e.name e.kind e.size)) w := by
      unfold write
      cases hkind : e.kind with
      | file => exact absurd hkind hk
      | _ => rfl
    rw [hput, bind_of_ok (put_eq hsink _)]
    rfl

/-! ### Being judged -/

lemma accept_judged (fs : FileSystem) (source base : Path) (node : Node) (implied : Bool)
    (w : Writer) : accept fs source base node implied w
      = (match w.judge source base node implied with
        | .outside => throw .outsideBase
        | .silent => return none
        | .rejected d => do
          report d
          return none
        | .duplicate name path first => do
          event (.skippingDuplicate name first source)
          report (.duplicate path)
          return none
        | .claims name kind => do
          modify (·.claim name ⟨kind, source⟩)
          if name = baseName then return none
          let target ← ofOs (targetOf fs kind source)
          return some ⟨name, kind, target, node.size, source⟩ : Writing (Option Entry)) w :=
  rfl

lemma accept_of_silent {implied : Bool} (h : w.judge source base node implied = .silent) :
    accept fs source base node implied w = .ok none w := by
  rw [accept_judged, h]
  rfl

lemma accept_of_rejected {implied : Bool} {d : Diagnostic}
    (h : w.judge source base node implied = .rejected d) :
    accept fs source base node implied w = .ok none (w.tell d) := by
  rw [accept_judged, h]
  rfl

lemma accept_of_duplicate {implied : Bool} {name : Bytes} {first : Path}
    (h : w.judge source base node implied = .duplicate name path first) :
    accept fs source base node implied w
      = .ok none ((w.note (.event (.skippingDuplicate name first source))).tell
          (.duplicate path)) := by
  rw [accept_judged, h]
  rfl

lemma accept_of_base {implied : Bool}
    (h : w.judge source base node implied = .claims baseName kind) :
    accept fs source base node implied w = .ok none (w.claim baseName ⟨kind, source⟩) := by
  rw [accept_judged, h]
  rfl

/-! What is not accepted is not added. -/

lemma addPath_of_accept {implied : Bool} {v : Writer}
    (h : accept fs source base node implied w = .ok none v) :
    addPath fs source base node implied w = .ok 0 v := by
  rw [addPath, bind_of_ok h]
  rfl

lemma addFile_of_accept {v : Writer} (h : accept fs source base node false w = .ok none v) :
    addFile fs source base node w = .ok 0 v := by
  rw [addFile, bind_of_ok h]
  rfl

/-! ### Being let in -/

/-- The node passes the filters as `path`, and no other has its name. -/
structure Admits (w : Writer) (base source : Path) (node : Node) (path : Bytes) (kind : Kind) :
    Prop where
  passes : Passes w.patterns w.filesOnly base source node path kind
  notBase : nameIn w.filesOnly path ≠ baseName
  free : nameIn w.filesOnly path ∉ w.claims.names

/-- The entry of a node that is let in. -/
def entryAs (w : Writer) (source : Path) (node : Node) (path : Bytes) (kind : Kind) (t : Bytes) :
    Entry :=
  ⟨nameIn w.filesOnly path, kind, t, node.size, source⟩

/-- The writer once the node has claimed its name. -/
def claimedBy (w : Writer) (source : Path) (path : Bytes) (kind : Kind) : Writer :=
  w.claim (nameIn w.filesOnly path) ⟨kind, source⟩

namespace Admits

lemma judge_eq (h : Admits w base source node path kind) (implied : Bool) :
    w.judge source base node implied = .claims (nameIn w.filesOnly path) kind := by
  have hfree : w.claims.holder? (w.archiveName path) = none :=
    Claims.holder?_eq_none_iff.mpr h.free
  rw [judge_of_passes h.passes, Writer.judgeName]
  simp only [hfree]
  rfl

lemma accept_eq (h : Admits w base source node path kind) (ht : targetOf fs kind source = .ok t)
    (implied : Bool) : accept fs source base node implied w
      = .ok (some (entryAs w source node path kind t)) (claimedBy w source path kind) := by
  have hclaim : accept fs source base node implied w
      = (do
          if nameIn w.filesOnly path = baseName then return none
          let target ← ofOs (targetOf fs kind source)
          return some ⟨nameIn w.filesOnly path, kind, target, node.size, source⟩ :
        Writing (Option Entry)) (claimedBy w source path kind) := by
    rw [accept_judged, h.judge_eq]
    rfl
  rw [hclaim, if_neg h.notBase, ht]
  rfl

lemma grows (h : Admits w base source node path kind) :
    Grows w (claimedBy w source path kind) [(nameIn w.filesOnly path, ⟨kind, source⟩)] [] :=
  Grows.claim _ (Claims.holder?_eq_none_iff.mpr h.free)

lemma entryOf (h : Admits w base source node path kind) (ht : targetOf fs kind source = .ok t) :
    EntryOf w.patterns w.filesOnly fs base node (entryAs w source node path kind t) :=
  ⟨⟨path, h.passes, rfl⟩, h.notBase, rfl, ht⟩

lemma addPath_eq (h : Admits w base source node path kind) (ht : targetOf fs kind source = .ok t)
    (implied : Bool) : addPath fs source base node implied w
      = (do
          write fs (entryAs w source node path kind t) node
          return 1) (claimedBy w source path kind) := by
  rw [addPath, bind_of_ok (h.accept_eq ht implied)]

lemma addFile_eq (h : Admits w base source node path kind) (ht : targetOf fs kind source = .ok t) :
    addFile fs source base node w
      = (do
          let added ← addParents fs base (if w.filesOnly then [] else parentsBelow source base)
          write fs (entryAs w source node path kind t) node
          return added + 1) (claimedBy w source path kind) := by
  rw [addFile, bind_of_ok (h.accept_eq ht false)]
  rfl

end Admits

end DeployClient.Archive
