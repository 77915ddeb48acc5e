import Mathlib.Data.List.Induction
import SoapBinding.Codec.Decoding
import SoapBinding.Multipart.Envelope
import SoapBinding.Proofs.Codec.References

/-!
# Exchanges

A context goes through the operations of an exchange: attachments are registered one by one or from an envelope, the
mode is set, messages are written and read, and the attachments are handed out. Whatever the operations, and whichever of
them fail, the context stays indexed, as each does nothing but register contents in a row, or forget all
(`exists_registers`).

So the attachments are what has been registered since they were last handed out, each where it was registered first:

    exists_logged : ∃ log, Logged c ops log ∧ (c.after ops).attachments = log.eraseDups
-/

namespace SoapBinding

open Outcome
open Xml (Sink)

/-- A value to be written, as an element or with none around. -/
structure Sending where
  /-- The files that payloads may lie in. -/
  files : Files
  /-- The types. -/
  registry : Registry
  /-- The registry is one that compiling has filled. -/
  registry_over : registry.Over registry.schema
  /-- The document that is written to. -/
  sink : Sink
  /-- The element, if there is one. -/
  element : Option String
  /-- The type. -/
  type : TypeName
  /-- The value. -/
  value : Value

/-- An element to be read, or a content with no element around. -/
structure Receiving where
  /-- The reader. -/
  decoder : Decoder
  /-- The element, if there is one. -/
  element : Option String
  /-- The type. -/
  type : TypeName

/-- An operation of an exchange. -/
inductive Operation where
  /-- Registers an attachment. -/
  | add (b : Binary)
  /-- Sets whether payloads travel as attachments. -/
  | setMultipart (on : Bool)
  /-- Hands out the attachments. -/
  | take
  /-- Registers the attachments of an envelope. -/
  | populate (envelope : Multipart.Envelope)
  /-- Writes a value. -/
  | encode (sending : Sending)
  /-- Reads a value. -/
  | decode (receiving : Receiving)

/-- Writing a value. -/
def Sending.work (s : Sending) : Encoding Unit :=
  match s.element with
  | none => Encoding.write s.files s.type s.value
  | some element => Encoding.writeElement s.files element s.type s.value

/-- The payloads that are written. -/
def Sending.payloads (s : Sending) : List Binary := s.registry.schema.payloadsIn s.element.isNone s.type s.value

/-- Reading a value in an exchange. -/
def Receiving.work (r : Receiving) (c : Context) : Decoding Value :=
  match r.element with
  | none => Decoding.read c r.type
  | some element => Decoding.readElement c element r.type

namespace Operation

/-- What an operation does to a context. -/
def perform : Operation → EStateM Error Context Unit
  | .add b => fun c =>
    match c.add b with
    | .ok c' => .ok () c'
    | .error fault => .error fault c
  | .setMultipart on => fun c => .ok () { c with multipart := on }
  | .take => fun c => .ok () c.take.2
  | .populate envelope => envelope.populate
  | .encode sending => fun c =>
    match sending.work ⟨sending.registry, c, sending.sink⟩ with
    | .ok () e => .ok () e.context
    | .error fault e => .error fault e.context
  | .decode receiving => fun c =>
    match receiving.work c receiving.decoder with
    | .ok _ _ => .ok () c
    | .error fault _ => .error fault c

/-- The contents that an operation registers, if nothing fails. -/
def contents (c : Context) : Operation → List Binary
  | .add b => [b]
  | .populate envelope => envelope.attachments
  | .encode sending => c.attaches sending.payloads
  | _ => []

/-- An operation registers contents in a row: those in front of the first that is refused, and all of them if nothing
fails. -/
structure Registers (op : Operation) (c : Context) (bs : List Binary) : Prop where
  front : bs <+: op.contents c
  complete : ∀ c', op.perform c = .ok () c' → bs = op.contents c
  registered : ∃ c', c.addAll bs = .ok () c' ∧ (left (op.perform c)).attachments = c'.attachments ∧
    (left (op.perform c)).index = c'.index

end Operation

namespace Context

/-- The context after operations, whether or not they failed. -/
def after (c : Context) (ops : List Operation) : Context := ops.foldl (fun c op => left (op.perform c)) c

/-- Contents have been registered by operations since the attachments were last handed out, in this order. -/
inductive Logged (c : Context) : List Operation → List Binary → Prop where
  | start : Logged c [] []
  | take {ops : List Operation} {log : List Binary} : Logged c ops log → Logged c (ops ++ [.take]) []
  | register {ops : List Operation} {op : Operation} {log bs : List Binary} : Logged c ops log → op ≠ .take →
      op.Registers (c.after ops) bs → Logged c (ops ++ [op]) (log ++ bs)

variable {c c' : Context} {op : Operation} {ops : List Operation} {b : Binary} {bs : List Binary}

@[simp] theorem after_nil (c : Context) : c.after [] = c := rfl

@[simp] theorem after_append (c : Context) (ops later : List Operation) :
    c.after (ops ++ later) = (c.after ops).after later :=
  List.foldl_append ..

/-- Contents in a row are registered up to the first that is refused. -/
theorem exists_addAll (c : Context) (bs : List Binary) :
    ∃ front, front <+: bs ∧ c.addAll front = .ok () (left (c.addAll bs)) ∧
      ∀ c', c.addAll bs = .ok () c' → front = bs := by
  induction bs generalizing c with
  | nil => exact ⟨[], List.prefix_rfl, rfl, fun _ _ => rfl⟩
  | cons b bs ih =>
    rw [addAll]
    cases hadd : c.add b with
    | error fault =>
      refine ⟨[], List.nil_prefix, rfl, fun c' h => ?_⟩
      cases h
    | ok middle =>
      obtain ⟨front, hfront, hok, hall⟩ := ih middle
      refine ⟨b :: front, (List.prefix_cons_inj b).2 hfront, addAll_cons.2 ⟨middle, hadd, hok⟩, ?_⟩
      intro c' h
      rw [hall c' h]

/-! ### One operation -/

/-- Writing a value registers its payloads. -/
theorem registers_encode (sending : Sending) (c : Context) : ∃ bs, (Operation.encode sending).Registers c bs := by
  have hrefers : Encoding.Refers sending.registry.schema (Sink.Gained fun _ => True) sending.work sending.payloads := by
    unfold Sending.work Sending.payloads
    cases sending.element with
    | none => exact Encoding.refers_write (fun _ _ => trivial) _
    | some element => exact (Encoding.refers_writeElement trivial (fun _ _ => trivial) _).mono fun _ _ _ h => h.gained
  obtain ⟨-, ⟨front, hfront, hadd, hall⟩, -⟩ := hrefers ⟨sending.registry, c, sending.sink⟩ sending.registry_over
  have hleft : left ((Operation.encode sending).perform c) =
      (left (sending.work ⟨sending.registry, c, sending.sink⟩)).context := by
    dsimp only [Operation.perform]
    cases sending.work ⟨sending.registry, c, sending.sink⟩ <;> rfl
  refine ⟨front, hfront, ?_, _, hadd, by rw [hleft], by rw [hleft]⟩
  intro c' hok
  cases hwork : sending.work ⟨sending.registry, c, sending.sink⟩ with
  | ok u e => exact hall e hwork
  | error fault e =>
    dsimp only [Operation.perform] at hok
    rw [hwork] at hok
    cases hok

/-- **An operation registers contents in a row, unless it hands all out.** -/
theorem exists_registers (c : Context) (hop : op ≠ .take) : ∃ bs, op.Registers c bs := by
  cases op with
  | add b =>
    cases hadd : c.add b with
    | ok c' =>
      have hperform : (Operation.add b).perform c = .ok () c' := by simp [Operation.perform, hadd]
      exact ⟨[b], List.prefix_rfl, fun _ _ => rfl, c', addAll_cons.2 ⟨c', hadd, rfl⟩, by simp [hperform],
        by simp [hperform]⟩
    | error fault =>
      have hperform : (Operation.add b).perform c = .error fault c := by simp [Operation.perform, hadd]
      exact ⟨[], List.nil_prefix, by simp [hperform], c, rfl, by simp [hperform], by simp [hperform]⟩
  | setMultipart on => exact ⟨[], List.prefix_rfl, fun _ _ => rfl, c, rfl, rfl, rfl⟩
  | take => exact (hop rfl).elim
  | populate envelope =>
    obtain ⟨front, hfront, hadd, hall⟩ := exists_addAll c envelope.attachments
    cases hresult : c.addAll envelope.attachments with
    | ok u c' =>
      -- The mode may change in the end, and nothing else does.
      have hperform : (Operation.populate envelope).perform c =
          .ok () (if envelope.isMultipart then { c' with multipart := true } else c') := by
        simp [Operation.perform, Multipart.Envelope.populate, hresult]
      rw [hresult] at hadd
      exact ⟨front, hfront, fun _ _ => hall c' hresult, c', hadd, by rw [hperform]; split <;> rfl,
        by rw [hperform]; split <;> rfl⟩
    | error fault c' =>
      have hperform : (Operation.populate envelope).perform c = .error fault c' := by
        simp [Operation.perform, Multipart.Envelope.populate, hresult]
      rw [hresult] at hadd
      exact ⟨front, hfront, by simp [hperform], c', hadd, by simp [hperform], by simp [hperform]⟩
  | encode sending => exact registers_encode sending c
  | decode receiving =>
    have hleft : left ((Operation.decode receiving).perform c) = c := by
      dsimp only [Operation.perform]
      cases receiving.work c receiving.decoder <;> rfl
    exact ⟨[], List.prefix_rfl, fun _ _ => rfl, c, rfl, by rw [hleft], by rw [hleft]⟩

/-- Only the list and the index matter for whether they agree. -/
theorem IsIndexed.of_eq (hc : c.IsIndexed) (hattachments : c'.attachments = c.attachments) (hindex : c'.index = c.index) :
    c'.IsIndexed := by
  intro id position
  rw [hattachments, hindex]
  exact hc id position

theorem IsIndexed.registers (hc : c.IsIndexed) (h : op.Registers c bs) :
    (left (op.perform c)).IsIndexed ∧
      (left (op.perform c)).attachments = c.attachments ++ (bs.removeAll c.attachments).eraseDups := by
  obtain ⟨-, -, c', hadd, hattachments, hindex⟩ := h
  exact ⟨(hc.addAll hadd).of_eq hattachments hindex, by rw [hattachments, hc.attachments_addAll hadd]⟩

theorem isIndexed_take (c : Context) : c.take.2.IsIndexed := isIndexed_empty rfl rfl

theorem IsIndexed.perform (hc : c.IsIndexed) (op : Operation) : (left (op.perform c)).IsIndexed := by
  by_cases hop : op = .take
  · subst hop
    exact isIndexed_take c
  · obtain ⟨bs, hbs⟩ := exists_registers c hop
    exact (hc.registers hbs).1

/-! ### Operations in a row -/

theorem IsIndexed.after (hc : c.IsIndexed) (ops : List Operation) : (c.after ops).IsIndexed := by
  induction ops generalizing c with
  | nil => exact hc
  | cons op ops ih => exact ih (hc.perform op)

/-- Until they are handed out, attachments stay where they are. -/
theorem IsIndexed.prefix_after (hc : c.IsIndexed) (hops : ∀ op ∈ ops, op ≠ .take) :
    c.attachments <+: (c.after ops).attachments := by
  induction ops generalizing c with
  | nil => exact List.prefix_rfl
  | cons op ops ih =>
    obtain ⟨bs, hbs⟩ := exists_registers c (hops op List.mem_cons_self)
    obtain ⟨hindexed, hattachments⟩ := hc.registers hbs
    refine List.IsPrefix.trans ?_ (ih hindexed fun op hop => hops op (List.mem_cons_of_mem _ hop))
    rw [hattachments]
    exact List.prefix_append ..

/-- **The attachments are those registered since they were last handed out**, each where it was registered first. -/
theorem exists_logged (hc : c.IsIndexed) (hempty : c.attachments = []) (ops : List Operation) :
    ∃ log, Logged c ops log ∧ (c.after ops).attachments = log.eraseDups := by
  induction ops using List.reverseRecOn with
  | nil => exact ⟨[], .start, hempty⟩
  | append_singleton ops op ih =>
    obtain ⟨log, hlog, hattachments⟩ := ih
    by_cases hop : op = .take
    · subst hop
      exact ⟨[], hlog.take, by rw [after_append]; rfl⟩
    · obtain ⟨bs, hbs⟩ := exists_registers (c.after ops) hop
      refine ⟨log ++ bs, hlog.register hop hbs, ?_⟩
      -- What is there already is what has been logged, once or more.
      have hremove : bs.removeAll log.eraseDups = bs.removeAll log := by simp [List.removeAll]
      rw [after_append, List.eraseDups_append, ← hattachments, ← hremove, ← hattachments]
      exact ((hc.after ops).registers hbs).2

/-- **Whatever has been done with a context**, its index tells the position of each attachment by its id. So ids are distinct,
and an id leads to the attachment that has it. The attachments are those registered since they were last handed out, each
where it was registered first, and they stay where they are until they are handed out again. To register one of them once
more changes nothing, and neither does a failing attempt to register another content under its id. They are handed out
once; then every content can be registered again. -/
theorem after_ofSettings (reference : Reference) (chunkSize : Nat) (ops : List Operation) :
    let c := (ofSettings reference chunkSize).after ops
    c.IsIndexed ∧ (c.attachments.map (·.id)).Nodup ∧
      (∀ id b, c.attachment? id = some b ↔ b ∈ c.attachments ∧ b.id = id) ∧
      (∃ log, Logged (ofSettings reference chunkSize) ops log ∧ c.attachments = log.eraseDups) ∧
      (∀ later, (∀ op ∈ later, op ≠ .take) → c.attachments <+: (c.after later).attachments) ∧
      (∀ b ∈ c.attachments, (Operation.add b).perform c = .ok () c) ∧
      (∀ b ∈ c.attachments, ∀ other, other.id = b.id → other ≠ b →
        (Operation.add other).perform c = .error (.attachment (.duplicateId other.id)) c) ∧
      c.take.1 = c.attachments ∧ c.take.2.take.1 = [] ∧
      ∀ b, ∃ c', (Operation.add b).perform c.take.2 = .ok () c' ∧ c'.attachments = [b] := by
  intro c
  have hc : c.IsIndexed := (isIndexed_ofSettings reference chunkSize).after ops
  refine ⟨hc, hc.nodup, fun _ _ => hc.attachment?_iff, ?_, fun later => hc.prefix_after, ?_, ?_, rfl, rfl, ?_⟩
  · exact exists_logged (isIndexed_ofSettings reference chunkSize) rfl ops
  · intro b hb
    simp [Operation.perform, hc.add_of_mem hb]
  · intro b hb other hid hne
    simp [Operation.perform, hc.add_of_used hb hid.symm hne.symm]
  · intro b
    refine ⟨c.take.2.push b, ?_, rfl⟩
    have hnew : c.take.2.add b = .ok (c.take.2.push b) := c.isIndexed_take.add_of_new nofun
    simp [Operation.perform, hnew]

end Context
end SoapBinding
