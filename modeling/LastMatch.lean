import LastMatch.Main
import LastMatch.Replay
import LastMatch.Proofs.Texts
import LastMatch.Proofs.Letters
import LastMatch.Proofs.Steps
import LastMatch.Proofs.Characters
import LastMatch.Proofs.Cutting
import LastMatch.Proofs.ReadingBack
import LastMatch.Proofs.TextQuoting
import LastMatch.Proofs.Grammar
import LastMatch.Proofs.Blanks
import LastMatch.Proofs.Editors
import LastMatch.Proofs.Parsing
import LastMatch.Proofs.CharacterWise
import LastMatch.Proofs.Trimming
import LastMatch.Proofs.QuoteScan
import LastMatch.Proofs.Rounds
import LastMatch.Proofs.Reading
import LastMatch.Proofs.Writing
import LastMatch.Proofs.Openings
import LastMatch.Proofs.Modes
import LastMatch.Proofs.Lines
import LastMatch.Proofs.Streams
import LastMatch.Proofs.LastLines
import LastMatch.Proofs.Courses
import LastMatch.Proofs.Phrases
import LastMatch.Proofs.Holding
import LastMatch.Proofs.Requests
import LastMatch.Proofs.Runs
import LastMatch.Proofs.StandIn
import LastMatch.Proofs.Launches
import LastMatch.Proofs.Clusters
import LastMatch.Proofs.Joining
import LastMatch.Proofs.Warnings
import LastMatch.Proofs.Failures
import LastMatch.Proofs.Answers
import LastMatch.Proofs.Reprinting
import LastMatch.Proofs.Marks
import LastMatch.Proofs.Colours
