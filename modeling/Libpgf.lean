import Libpgf.Pgf.Continuations
import Libpgf.Pgf.EarlierStates
import Libpgf.Pgf.Parses
import Libpgf.Pgf.RoundTrip
import Libpgf.Pgf.Termination
import Libpgf.Pgf.Once
import Libpgf.Utils.Translations
import Libpgf.Pgf.Completeness
import Libpgf.Pgf.Trees
import Libpgf.Pgf.CountsFit
import Libpgf.Pgf.ExprRoundTrip
import Libpgf.Gu.Text
import Libpgf.Gu.Getc
import Libpgf.Gu.ChoiceRuns
import Libpgf.Pgf.Positions
import Libpgf.Pgf.ExtraPass
import Libpgf.Pgf.Labels
import Libpgf.Pgf.AcceptedRows
import Libpgf.Gu.PrimeLaws
import Libpgf.Gu.MemSizes
import Libpgf.Gu.SeqLaws
import Libpgf.Gu.ExnFrames
import Libpgf.Pgf.Ints
import Libpgf.Gu.Hash
import Libpgf.Gu.LocaleRead
import Libpgf.Gu.YamlRoundTrip
import Libpgf.Gu.MapRefines
import Libpgf.Pgf.Functions
import Libpgf.Pgf.Sections
