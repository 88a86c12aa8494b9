import Tlv.Certificate.AuthorityKey
import Tlv.Certificate.BasicConstraints
import Tlv.Certificate.DirectoryString
import Tlv.Certificate.Extension
import Tlv.Certificate.Identifiers
import Tlv.Certificate.PublicKey
import Tlv.Certificate.Time
import Tlv.Input
import Tlv.Output
import Tlv.Proofs.Ambiguity
import Tlv.Proofs.ArcWords
import Tlv.Proofs.BitWords
import Tlv.Proofs.Certificates
import Tlv.Proofs.CharString
import Tlv.Proofs.Choices
import Tlv.Proofs.Copies
import Tlv.Proofs.EqualObjects
import Tlv.Proofs.Faults
import Tlv.Proofs.FieldParsers
import Tlv.Proofs.FieldRuns
import Tlv.Proofs.IdentifierOctets
import Tlv.Proofs.ImplicitTag
import Tlv.Proofs.IndexedExtensions
import Tlv.Proofs.KeptWidths
import Tlv.Proofs.LengthOctets
import Tlv.Proofs.Limits
import Tlv.Proofs.NamedBits
import Tlv.Proofs.PartGrammars
import Tlv.Proofs.Progress
import Tlv.Proofs.ReportedTags
import Tlv.Proofs.RuleOrder
import Tlv.Proofs.Segments
import Tlv.Proofs.SelfDelimiting
import Tlv.Proofs.SetOrder
import Tlv.Proofs.ShortYears
import Tlv.Proofs.Spelling
import Tlv.Proofs.Streams
import Tlv.Proofs.Strict
import Tlv.Proofs.TagChain
import Tlv.Value.Display
